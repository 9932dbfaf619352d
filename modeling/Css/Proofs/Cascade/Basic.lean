import Css.Proofs.Number.Equality
import Css.Rule.Compact
import Mathlib.Data.Prod.Lex
import Mathlib.Order.BooleanAlgebra.Basic
import Mathlib.Order.MinMax

/-!
# The cascade

Which value an element gets for a property. A rule applies if the engine accepts all its selectors and
one of them matches the element. A value says the same wherever its addresses stand in the source.
-/
namespace Css
open Number

def Number.unsigned (x : Float32) : Float32 :=
  if Binary32.magnitude x = 0 then Binary32.ofMagnitude false 0 else x

def Color.content : Color → Color
  | rgba c => rgba c
  | legacyRgba c => legacyRgba c
  | perceptual space x y z alpha =>
    perceptual space (Number.unsigned x) (Number.unsigned y) (Number.unsigned z) (Number.unsigned alpha)

def Component.leafContent : Component → Component
  | number x => number (Number.unsigned x)
  | percentage x => percentage (Number.unsigned x)
  | dimension x unit => dimension (Number.unsigned x) unit
  | color c => color c.content
  | url address _ => url address ⟨0,0⟩
  | c => c

def Value.content (value : Value) : Value := value.mapLeaves Component.leafContent

namespace Number

lemma unsigned_eq_of_beq {x y : Float32} (h : (x == y)) : unsigned x = unsigned y := by
  rcases Binary32.eq_or_zero_of_beq h with rfl | ⟨hx,hy⟩
  · rfl
  · rw [unsigned,unsigned,if_pos hx,if_pos hy]

end Number

lemma Color.content_eq_of_beq {c d : Color} (h : (c == d)) : c.content = d.content := by
  cases c with
  | rgba a =>
    cases d <;> simp [BEq.beq,instBEqColor.beq] at h
    rw [h]
  | legacyRgba a =>
    cases d <;> simp [BEq.beq,instBEqColor.beq] at h
    rw [h]
  | perceptual space x y z alpha =>
    cases d <;> simp [BEq.beq,instBEqColor.beq] at h
    obtain ⟨rfl,hx,hy,hz,ha⟩ := h
    simp only [content]
    rw [unsigned_eq_of_beq hx,unsigned_eq_of_beq hy,unsigned_eq_of_beq hz,unsigned_eq_of_beq ha]

namespace Component

def contentVisitor : Visitor Id := ⟨fun c => pure c.leafContent,fun name source => pure (name,source)⟩

lemma traverseAll_eq_of_same (xs ys : List Component) (h : same.sameAll xs ys) :
    traverse.traverseAll contentVisitor xs = traverse.traverseAll contentVisitor ys := by
  induction xs using Value.induct generalizing ys with
  | nil =>
    cases ys with
    | nil => rfl
    | cons => cases h
  | cons a xs ha ih =>
    cases ys with
    | nil => cases h
    | cons b ys =>
      simp only [same.sameAll,Bool.and_eq_true] at h
      simp only [traverse.traverseAll]
      rw [ih ys h.2]
      replace h := h.1
      congr 1
      cases a <;> cases b <;> simp [same] at h
      case number.number | percentage.percentage =>
        simp only [traverse,contentVisitor,leafContent]
        rw [unsigned_eq_of_beq h]
      case dimension.dimension =>
        simp only [traverse,contentVisitor,leafContent]
        rw [unsigned_eq_of_beq h.1,h.2]
      case color.color =>
        simp only [traverse,contentVisitor,leafContent]
        rw [Color.content_eq_of_beq h]
      case url.url =>
        simp only [traverse,contentVisitor,leafContent]
        rw [h]
      case reference.reference _ _ xs _ _ ys =>
        simp only [traverse]
        rw [h.1.1,h.1.2]
        cases xs <;> cases ys <;> simp [same.sameFallback] at h
        · rfl
        · simp only [traverse.traverseFallback]
          rw [ha _ h.2]
      case function.function | block.block =>
        simp only [traverse]
        rw [h.1,ha _ h.2]
      all_goals first
        | rfl
        | rw [h]

end Component

lemma Value.content_eq_of_same {a b : Value} (h : a.same b) : a.content = b.content :=
  Component.traverseAll_eq_of_same a b h

end Css

namespace Css.Cascade
open List

/-- A browser, by what it accepts. It accepts custom properties, values that every browser
understands and selectors that every browser understands, and it does not tell declarations apart
that say the same. -/
structure Engine where
  declaration : Declaration → Bool
  selector : Selector → Bool
  accepts_custom : ∀ d : Declaration, d.property.isCustom = true → declaration d = true
  accepts_universal : ∀ d : Declaration, d.value.isUniversal = true → declaration d = true
  accepts_wide : ∀ s : Selector, s.isWide = true → selector s = true
  accepts_same : ∀ d e : Declaration, d.same e = true → declaration d = declaration e

section
variable {α β ρ : Type} [LinearOrder ρ]

def better (rank : α → ρ) : Option α → Option α → Option α
  | none, b => b
  | some a, none => some a
  | some a, some b => if rank a ≤ rank b then some b else some a

def winner (rank : α → ρ) : List α → Option α
  | [] => none
  | a :: rest => better rank (some a) (winner rank rest)

@[simp] lemma better_none (rank : α → ρ) (a : Option α) : better rank a none = a := by
  cases a <;> rfl

@[simp] lemma none_better (rank : α → ρ) (a : Option α) : better rank none a = a := rfl

lemma better_assoc (rank : α → ρ) (a b c : Option α) :
    better rank (better rank a b) c = better rank a (better rank b c) := by
  cases a with
  | none => rfl
  | some a =>
    cases b with
    | none => rfl
    | some b =>
      cases c with
      | none => simp
      | some c =>
        by_cases hab : rank a ≤ rank b
        · by_cases hbc : rank b ≤ rank c
          · have hac := hab.trans hbc
            simp [better,hab,hbc,hac]
          · simp [better,hab,hbc]
        · by_cases hbc : rank b ≤ rank c
          · simp [better,hab,hbc]
          · have hac : ¬rank a ≤ rank c := fun h =>
              hab (h.trans (le_of_not_ge hbc))
            simp [better,hab,hbc,hac]

lemma winner_append (rank : α → ρ) (xs ys : List α) :
    winner rank (xs ++ ys) = better rank (winner rank xs) (winner rank ys) := by
  induction xs with
  | nil => rfl
  | cons x xs ih => rw [cons_append,winner,ih,winner,better_assoc]

lemma winner_map (rank : β → ρ) (f : α → β) (xs : List α) :
    winner rank (xs.map f) = (winner (fun a => rank (f a)) xs).map f := by
  induction xs with
  | nil => rfl
  | cons x xs ih =>
    rw [map_cons,winner,ih,winner]
    cases winner (fun a => rank (f a)) xs with
    | none => rfl
    | some w =>
      by_cases h : rank (f x) ≤ rank (f w) <;> simp [better,h]

variable {xs : List α}

lemma exists_winner_of_mem (rank : α → ρ) {x : α} (hx : x ∈ xs) : ∃ w, winner rank xs = some w ∧ rank x ≤ rank w := by
  induction xs with
  | nil => simp at hx
  | cons y ys ih =>
    cases hw : winner rank ys with
    | none =>
      rcases mem_cons.mp hx with rfl | hm
      · exact ⟨x,by simp [winner,hw],le_refl _⟩
      · obtain ⟨w,hw',_⟩ := ih hm
        rw [hw] at hw'
        cases hw'
    | some w =>
      by_cases hy : rank y ≤ rank w
      · refine ⟨w,by simp [winner,hw,better,hy],?_⟩
        rcases mem_cons.mp hx with rfl | hm
        · exact hy
        · obtain ⟨v,hv,hle⟩ := ih hm
          rw [hw] at hv; cases hv
          exact hle
      · refine ⟨y,by simp [winner,hw,better,hy],?_⟩
        rcases mem_cons.mp hx with rfl | hm
        · exact le_refl _
        · obtain ⟨v,hv,hle⟩ := ih hm
          rw [hw] at hv; cases hv
          exact hle.trans (le_of_not_ge hy)

lemma winner_cons_of_le (rank : α → ρ) {x y : α} (hy : y ∈ xs)
    (hle : rank x ≤ rank y) : winner rank (x :: xs) = winner rank xs := by
  obtain ⟨w,hw,hyw⟩ := exists_winner_of_mem rank hy
  have hxw : rank x ≤ rank w := hle.trans hyw
  simp [winner,hw,better,hxw]

lemma mem_of_winner (rank : α → ρ) {w : α} (h : winner rank xs = some w) : w ∈ xs := by
  induction xs with
  | nil => cases h
  | cons x xs ih =>
    rw [winner] at h
    cases hw : winner rank xs with
    | none =>
      rw [hw,better_none] at h
      exact mem_cons.mpr (.inl (Option.some.inj h).symm)
    | some v =>
      rw [hw,better] at h
      split at h
      · exact mem_cons_of_mem x (ih (hw.trans h))
      · exact mem_cons.mpr (.inl (Option.some.inj h).symm)

lemma winner_append_of_le (rank : α → ρ) {y : α}
    (hle : ∀ x ∈ xs, rank x ≤ rank y) : winner rank (xs ++ [y]) = some y := by
  induction xs with
  | nil => rfl
  | cons x xs ih =>
    have hr := ih fun z hz => hle z (mem_cons_of_mem x hz)
    rw [cons_append,winner_cons_of_le rank (mem_append_right xs (mem_singleton_self y)) (hle x mem_cons_self),hr]

end

structure Bid (σ : Type) where
  important : Bool
  specificity : σ
  value : Value

namespace Bid
variable {σ : Type}

def rank (b : Bid σ) : Bool ×ₗ σ := toLex (b.important,b.specificity)

def content (b : Bid σ) : Bid σ := { b with value := b.value.content }

end Bid

section
variable {σ : Type} [LinearOrder σ]
variable (engine : Engine) (matched : Selector → Bool) (specificity : Selector → σ)

def weight? (selectors : List Selector) : Option σ :=
  if selectors.all engine.selector then ((selectors.filter matched).map specificity).max? else none

def bidsOf (p : Property) (weight : σ) (declarations : List Declaration) : List (Bid σ) :=
  (declarations.filter fun d => d.property == p && engine.declaration d).map fun d =>
    ⟨d.important,weight,d.value⟩

def blockBids (p : Property) (b : StyleBlock) : List (Bid σ) :=
  match weight? engine matched specificity b.selectors with
  | some weight => bidsOf engine p weight b.declarations
  | none => []

def ruleBids (p : Property) : Rule → List (Bid σ)
  | .style b _ => blockBids engine matched specificity p b
  | _ => []

/-- The value that an element gets for a property. The element is given by the selectors that match
it. -/
def winningValue (p : Property) (rules : List Rule) : Option Value :=
  (winner Bid.rank (rules.flatMap (ruleBids engine matched specificity p))).map Bid.value

end
end Css.Cascade
