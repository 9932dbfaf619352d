import Css.Proofs.Value.Parts
import Css.Transform.Fallback
import Mathlib.Logic.Basic

/-!
# Values with other colours

The fallbacks of a value replace its colours, at any depth, and leave the rest as it is.
-/
namespace Css.Declaration
variable (targets : Targets) (block earlier : List Declaration) (d : Declaration)

def sideNames : List String := ["top","right","bottom","left"]

structure IsSideOf (side : Declaration) : Prop where
  property : ∃ name ∈ sideNames, side.property = .standard name none
  value : ∀ c ∈ side.value, c ∈ d.value
  important : side.important = d.important
  location : side.location = d.location

variable {targets d} in
lemma insetSides?_eq_some {sides : List Declaration} (h : insetSides? targets d = some sides) :
    d.property.name = "inset" ∧ Feature.insetShorthand.isCompatible targets = false ∧
      d.value.hasVariable = false ∧ sides ≠ [] ∧ ∀ side ∈ sides, IsSideOf d side := by
  unfold insetSides? at h
  split at h
  · rename_i hi
    simp only [Bool.and_eq_true,beq_iff_eq,Bool.not_eq_true'] at hi
    obtain ⟨⟨hn,hc⟩,hv⟩ := hi
    have hpr : ∀ {ps : List Value}, d.value.parts? = some ps → ∀ part ∈ ps, ∀ c ∈ part, c ∈ d.value := by
      intro ps hp part hin
      unfold Value.parts? at hp
      split at hp
      · cases hp
      · cases hp
        exact Value.mem_of_mem_parts hin
    have hs : ∀ {side : String} {value : Value}, side ∈ sideNames → (∀ c ∈ value, c ∈ d.value) →
          IsSideOf d { d with property := .standard side none, value } := by
      intro side value hn hvl
      exact ⟨⟨side,hn,rfl⟩,hvl,rfl,rfl⟩
    refine ⟨hn,hc,hv,?_⟩
    simp only at h
    split at h
    all_goals cases h
    all_goals rename_i hp
    all_goals refine ⟨by simp,?_⟩
    all_goals simp only [List.mem_cons,List.not_mem_nil,or_false]
    all_goals rintro side (rfl | rfl | rfl | rfl)
    all_goals exact hs (by simp [sideNames]) (hpr hp _ (by simp))
  · cases h

lemma withFallbacks_ne_nil : withFallbacks targets block earlier d ≠ [] := by
  unfold withFallbacks
  simp only
  split
  · simp
  · simp
  · split
    · rename_i sides hs
      have hne := (insetSides?_eq_some hs).2.2.2.1
      simp [hne]
    · simp

lemma isEmpty_addFallbacks : (addFallbacks targets block).isEmpty = block.isEmpty := by
  cases block with
  | nil => rfl
  | cons d rest =>
    have hne := withFallbacks_ne_nil targets (d :: rest) [] d
    unfold addFallbacks addFallbacksFrom
    cases hf : withFallbacks targets (d :: rest) [] d with
    | nil => exact absurd hf hne
    | cons => rfl

end Css.Declaration

namespace Css
open Component.anywhere Component Value Color List

lemma Property.exists_standard {p : Property} (h : p.isCustom = false) : ∃ name vendor, p = .standard name vendor := by
  cases p with
  | standard name vendor => exact ⟨name,vendor,rfl⟩
  | custom => cases h

namespace Component

def recolor (f : Color → Color) : Component → Component
  | color c => color (f c)
  | reference name source fallback => reference name source (recolorFallback f fallback)
  | function name xs => function name (recolorAll f xs)
  | block bracket xs => block bracket (recolorAll f xs)
  | c => c
where
  recolorAll (f : Color → Color) : List Component → List Component
    | [] => []
    | x :: xs => x.recolor f :: recolorAll f xs
  recolorFallback (f : Color → Color) : Option (List Component) → Option (List Component)
    | none => none
    | some xs => some (recolorAll f xs)

open recolor

lemma recolorAll_eq_map (f : Color → Color) (xs : List Component) : recolorAll f xs = xs.map (recolor f) := by
  induction xs with
  | nil => rfl
  | cons x xs ih => rw [recolorAll,ih,map_cons]

def isColor (p : Color → Bool) : Component → Bool
  | color c => p c
  | _ => false

def isReference : Component → Bool
  | reference .. => true
  | _ => false

structure Recolors (f : Color → Color) (leaf : Component → Component) : Prop where
  color : ∀ c, leaf (color c) = color (f c)
  other : ∀ c, isColor (fun _ => true) c = false → leaf c = c

section
variable {f : Color → Color} {leaf : Component → Component}

lemma traverseAll_eq_recolor (h : Recolors f leaf) (xs : List Component) : Id.run (traverse.traverseAll
      ⟨fun c => pure (leaf c),fun name src => pure (name,src)⟩ xs) = recolorAll f xs := by
  induction xs using Value.induct with
  | nil => rfl
  | cons c xs hc ih =>
    refine congrArg₂ cons ?_ ih
    cases c with
    | color c => exact h.color c
    | reference name src fb =>
      cases fb with
      | none => rfl
      | some ys => exact congrArg (fun ys => reference name src (some ys)) hc
    | function name ys => exact congrArg (function name) hc
    | block bracket ys => exact congrArg (block bracket) hc
    | _ => exact h.other _ rfl

lemma mapLeaves_eq_recolorAll (h : Recolors f leaf) (value : Value) : value.mapLeaves leaf = recolorAll f value :=
  traverseAll_eq_recolor h value

end

lemma anywhereIn_never {p : Component → Bool} (h : ∀ c, p c = false) (xs : List Component) : anywhereIn p xs = false := by
  induction xs using Value.induct with
  | nil => rfl
  | cons c xs hc ih =>
    rw [anywhereIn,anywhere_eq,h,hc,ih]; rfl

section
variable {f g : Color → Color} {p : Color → Bool}

lemma recolorAll_recolorAll (xs : List Component) : recolorAll f (recolorAll g xs) = recolorAll (f ∘ g) xs := by
  induction xs using Value.induct with
  | nil => rfl
  | cons c xs hc ih =>
    refine congrArg₂ cons ?_ ih
    cases c with
    | reference name src fb =>
      cases fb with
      | none => rfl
      | some ys => exact congrArg (fun ys => reference name src (some ys)) hc
    | function name ys => exact congrArg (function name) hc
    | block bracket ys => exact congrArg (block bracket) hc
    | _ => rfl

lemma inner_recolor (c : Component) : (c.recolor f).inner = recolorAll f c.inner := by
  cases c with
  | reference _ _ fb => cases fb <;> rfl
  | _ => rfl

lemma anywhereIn_recolorAll_of {q r : Component → Bool} (h : ∀ c, q (recolor f c) = r c) (xs : List Component) :
    anywhereIn q (recolorAll f xs) = anywhereIn r xs := by
  induction xs using Value.induct with
  | nil => rfl
  | cons c xs hc ih =>
    rw [recolorAll,anywhereIn,anywhereIn,anywhere_eq,anywhere_eq,h,inner_recolor,hc,ih]

lemma anywhereIn_recolorAll (xs : List Component) : anywhereIn (isColor p) (recolorAll f xs) =
      anywhereIn (isColor (p ∘ f)) xs :=
  anywhereIn_recolorAll_of (fun c => by cases c <;> rfl) xs

lemma recolorAll_eq_self (h : ∀ x, p x = false → f x = x) (xs : List Component)
    (hxs : anywhereIn (isColor p) xs = false) : recolorAll f xs = xs := by
  induction xs using Value.induct with
  | nil => rfl
  | cons c xs hc ih =>
    rw [anywhereIn,anywhere_eq,Bool.or_eq_false_iff,Bool.or_eq_false_iff] at hxs
    refine congrArg₂ cons ?_ (ih hxs.2)
    have hi := hc hxs.1.2
    cases c with
    | color x => exact congrArg color (h x hxs.1.1)
    | reference name src fb =>
      cases fb with
      | none => rfl
      | some ys => exact congrArg (fun ys => reference name src (some ys)) hi
    | function name ys => exact congrArg (function name) hi
    | block bracket ys => exact congrArg (block bracket) hi
    | _ => rfl

end
end Component

lemma Value.anywhere_eq (p : Component → Bool) (value : Value) : value.anywhere p = anywhereIn p value := by
  induction value with
  | nil => rfl
  | cons c value ih =>
    change (c.anywhere p || anywhere p value) = _
    rw [ih,anywhereIn]

lemma Value.hasVariable_recolorAll (f : Color → Color) (value : Value) :
    hasVariable (recolor.recolorAll f value) = value.hasVariable := by
  rw [hasVariable,hasVariable,anywhere_eq,anywhere_eq]
  apply anywhereIn_recolorAll_of
  intro c
  cases c <;> rfl

namespace Color

/-- The colour, written as a function if it has an alpha that the targets do not support in a hash. -/
def lowerAlpha (targets : Targets) : Color → Color
  | rgba c => if Feature.hexAlphaColors.isCompatible targets || c.isSolid then rgba c else legacyRgba c
  | c => c

def toSrgb (targets : Targets) (c : Color) : Color := if c.isPerceptual then
    if c.toRgba.isSolid || Feature.hexAlphaColors.isCompatible targets then rgba c.toRgba
    else legacyRgba c.toRgba
  else c

end Color

namespace Declaration
open Component.recolor
variable (targets : Targets) (value : Value)

lemma lowerAlpha_eq : lowerAlpha targets value = recolorAll (Color.lowerAlpha targets) value := by
  unfold lowerAlpha
  split
  · rename_i h
    have hs : ∀ x, (fun _ => false) x = false → Color.lowerAlpha targets x = x := by
      intro x _
      cases x with
      | rgba c => simp [Color.lowerAlpha,h]
      | _ => rfl
    have hn : ∀ c, isColor (fun _ => false) c = false := by
      intro c
      cases c <;> rfl
    exact (recolorAll_eq_self hs value (anywhereIn_never hn value)).symm
  · rename_i h
    apply mapLeaves_eq_recolorAll
    refine ⟨?_,?_⟩
    · intro c
      cases c with
      | rgba c =>
        simp only [Color.lowerAlpha,h,Bool.false_or]
      | _ => rfl
    · intro c hc
      cases c with
      | color c => cases hc
      | _ => rfl

lemma srgbValue_eq : srgbValue targets value = recolorAll (toSrgb targets) value := by
  apply mapLeaves_eq_recolorAll
  refine ⟨?_,?_⟩
  · intro c
    unfold toSrgb
    simp only
    split <;> rfl
  · intro c hc
    cases c with
    | color c => cases hc
    | _ => rfl

end Declaration
end Css

namespace Css.Component


open render Bool String List

def isSeparator : Component → Bool
  | colon | semicolon => true
  | delim c => c == '/'
  | _ => false

lemma absorbsBlanks_eq (minify : Bool) (c : Component) :
    c.absorbsBlanks minify = (c.isComma || minify && c.isSeparator) := by
  cases minify <;> cases c <;> rfl

def isSolid (c : Component) : Bool := !(c.isWhitespace || c.isComma || c.isSeparator)

/-- Whether a component may stand first in a part, which starts with a colon if `pseudo`. -/
def leads (pseudo : Bool) (c : Component) : Bool := !c.isWhitespace && !c.isComma && c.isSeparator == pseudo

def textBetween (minify : Bool) (before after : Option Component) : Component → String
  | whitespace => blank minify before after
  | comma => commaText minify after.isNone
  | c => c.render minify

lemma renderList_cons (m : Bool) (pre : Option Component) (c : Component) (xs : List Component) :
    renderList m pre (c :: xs) = c.textBetween m pre xs.head? ++ renderList m (some c) xs := by
  cases xs <;> cases c <;> rfl

variable {xs : List Component}

lemma renderList_append (m : Bool) (pre : Option Component) (h : xs.getLast?.any isSolid) (ys : List Component) :
    renderList m pre (xs ++ ys) = renderList m pre xs ++ renderList m xs.getLast? ys := by
  induction xs generalizing pre with
  | nil => cases h
  | cons c xs ih =>
    cases xs with
    | nil =>
      rw [List.singleton_append,renderList_cons,renderList_cons,renderList,String.append_empty]
      cases c with
      | whitespace => cases h
      | comma => cases h
      | _ => rfl
    | cons d xs =>
      have hl : (c :: d :: xs).getLast? = (d :: xs).getLast? := List.getLast?_cons_cons
      rw [hl,List.cons_append,renderList_cons,renderList_cons,ih (some c) h,String.append_assoc]
      rfl

lemma renderList_of_head (m : Bool) (pre : Option Component) (h : xs.head?.any (fun c => !c.isWhitespace)) :
    renderList m pre xs = renderList m none xs := by
  cases xs with
  | nil => rfl
  | cons c xs =>
    cases c with
    | whitespace => cases h
    | _ => rfl

lemma renderList_blank {a b : Component} (ha : a.isSolid) {pseudo : Bool}
    (hb : b.leads pseudo) (minify : Bool) (xs : List Component) :
    renderList minify (some a) (whitespace :: b :: xs) =
      (if minify && pseudo then "" else " ") ++ renderList minify none (b :: xs) := by
  rw [isSolid,not_eq_true',or_eq_false_iff,or_eq_false_iff] at ha
  obtain ⟨⟨hbl,hc⟩,hs⟩ := ha
  rw [leads,and_eq_true,and_eq_true,not_eq_true',not_eq_true',beq_iff_eq] at hb
  obtain ⟨⟨hbl',hc'⟩,rfl⟩ := hb
  have hh : (b :: xs).head?.any (fun c => !c.isWhitespace) := by
    rw [head?_cons,Option.any_some,hbl']; rfl
  rw [renderList_cons,renderList_of_head minify (some whitespace) hh,textBetween,
    head?_cons,blank,absorbsBlanks_eq,absorbsBlanks_eq,hbl,hc,hs,hc']
  cases minify <;> cases b.isSeparator <;> rfl

lemma renderList_comma (minify : Bool) (pre : Option Component) (h : xs.head?.any (fun c => !c.isWhitespace)) :
    renderList minify pre (comma :: whitespace :: xs) = (if minify then "," else ", ") ++ renderList minify none xs := by
  cases xs with
  | nil => cases h
  | cons c xs =>
    rw [renderList_cons,renderList_cons,renderList_of_head minify (some whitespace) h]
    cases minify <;> exact congrArg _ (empty_append)

lemma toList_renderList (m : Bool) (pre : Option Component) (h : xs.all (fun c => !(c.isWhitespace || c.isComma))) :
    (renderList m pre xs).toList = xs.flatMap fun c => (c.render m).toList := by
  induction xs generalizing pre with
  | nil => rfl
  | cons c xs ih =>
    rw [all_cons,and_eq_true] at h
    rw [renderList_cons,toList_append,ih (some c) h.2,flatMap_cons]
    cases c with
    | whitespace => cases h.1
    | comma => cases h.1
    | _ => rfl

end Css.Component
