import Css.Proofs.Selector.RoundTrip

/-!
# Selectors without blanks before colons

Where the blank before a colon is lost, the pseudo-class behind it joins the compound before it.
-/
namespace Css
open List Text Token Part.anywhere Bool Nat Css.Part
namespace Part

def isDescendant : Part → Bool
  | combinator .descendant => true
  | _ => false

def closedUp : Part → Part
  | pseudoClassOf name selectors => pseudoClassOf name (closedUpAll selectors)
  | p => p
where
  closedUpParts : List Part → List Part
    | [] => []
    | p :: parts =>
      if p.isDescendant && parts.head?.any isPseudo then closedUpParts parts
      else p.closedUp :: closedUpParts parts
  closedUpAll : List (List Part) → List (List Part)
    | [] => []
    | s :: selectors => closedUpParts s :: closedUpAll selectors

def losesBlank : Part → Bool
  | pseudoClassOf _ selectors => anyLoses selectors
  | _ => false
where
  partsLose : List Part → Bool
    | [] => false
    | p :: parts =>
      p.isDescendant && parts.head?.any isPseudo || p.losesBlank || partsLose parts
  anyLoses : List (List Part) → Bool
    | [] => false
    | s :: selectors => partsLose s || anyLoses selectors

lemma isType_closedUp (p : Part) : p.closedUp.isType = p.isType := by cases p <;> rfl

lemma isPseudo_closedUp (p : Part) : p.closedUp.isPseudo = p.isPseudo := by cases p <;> rfl

end Part

namespace Selector
open Part.losesBlank

open Part.closedUp

def closedUp (s : Selector) : Selector := closedUpParts s

lemma closedUpAll_eq_map (sels : List Selector) : closedUpAll sels = sels.map closedUp := by
  induction sels with
  | nil => rfl
  | cons s sels ih => rw [closedUpAll,ih,map_cons,closedUp]

lemma closedUp_cons {p : Part} (hp : p.isCombinator = false) (parts : List Part) :
    closedUp (p :: parts) = p.closedUp :: closedUp parts := by
  have hb : p.isDescendant = false := by
    cases p with
    | combinator c => cases hp
    | _ => rfl
  rw [closedUp,closedUpParts,hb]; rfl

lemma closedUp_compound {ps : List Part} (hp : ∀ p ∈ ps, p.isCombinator = false)
    (rest : Selector) : closedUp (ps ++ rest) = ps.map Part.closedUp ++ closedUp rest := by
  induction ps with
  | nil => rfl
  | cons p ps ih =>
    rw [cons_append,closedUp_cons (hp p mem_cons_self),ih fun q hq => hp q (mem_cons_of_mem p hq),map_cons,cons_append]

lemma closedUp_of_simple {ps : List Part} (hp : ∀ p ∈ ps, p.isCombinator = false) :
    closedUp ps = ps.map Part.closedUp := by
  have hc := closedUp_compound hp []
  have hn : closedUp [] = [] := rfl
  rwa [hn,append_nil,append_nil] at hc

def isLost (c : Combinator) (rest : Selector) : Bool := c == .descendant && rest.head?.any Part.isPseudo

lemma closedUp_combinator (c : Combinator) (rest : Selector) : closedUp (.combinator c :: rest) =
      if isLost c rest then closedUp rest else .combinator c :: closedUp rest := by
  cases c <;> rfl

def losesBlank (s : Selector) : Bool := partsLose s

lemma anyLoses_eq_any (sels : List Selector) : anyLoses sels = sels.any losesBlank := by
  induction sels with
  | nil => rfl
  | cons s sels ih => rw [anyLoses,ih,any_cons,losesBlank]

lemma length_closedUpParts_le (ps : List Part) : (closedUpParts ps).length ≤ ps.length := by
  induction ps with
  | nil => exact le_refl _
  | cons p ps ih =>
    rw [closedUpParts]
    split
    · exact le_succ_of_le ih
    · exact succ_le_succ ih

lemma closedUp_eq_self_iff : (∀ ps, closedUpParts ps = ps ↔ partsLose ps = false) ∧
    ∀ ss, closedUpAll ss = ss ↔ anyLoses ss = false := by
  refine Part.induct ⟨fun _ => rfl,fun _ => rfl⟩ ?_ ⟨fun _ => rfl,fun _ => rfl⟩ ?_
  · intro p ps hi ih
    have hp : p.closedUp = p ↔ p.losesBlank = false := by
      cases p with
      | pseudoClassOf name selectors =>
        rw [Part.closedUp,Part.losesBlank,← hi]
        exact ⟨fun h => (Part.pseudoClassOf.inj h).2,congrArg _⟩
      | _ => exact ⟨fun _ => rfl,fun _ => rfl⟩
    rw [closedUpParts,partsLose,or_eq_false_iff,or_eq_false_iff,← hp,← ih]
    split
    · -- Where a blank is left out, less is left than before.
      rename_i hl
      have hs := length_closedUpParts_le ps
      constructor
      · intro heq
        rw [heq,length_cons] at hs
        exact absurd hs (not_succ_le_self _)
      · rintro ⟨⟨hk,-⟩,-⟩
        rw [hk] at hl; cases hl
    · rename_i hk
      rw [List.cons.injEq,(not_eq_true _).mp hk]
      exact ⟨fun h => ⟨⟨rfl,h.1⟩,h.2⟩,fun h => ⟨h.1.2,h.2⟩⟩
  · intro s ss hs ih
    rw [closedUpAll,anyLoses,or_eq_false_iff,List.cons.injEq,hs,ih]

lemma map_closedUp_eq_self_iff (sels : List Selector) : sels.map closedUp = sels ↔ sels.any losesBlank = false := by
  rw [← closedUpAll_eq_map,← anyLoses_eq_any]
  exact closedUp_eq_self_iff.2 sels

section
variable {f : Part → Bool}

lemma anywhereIn_closedUp (hf : ∀ p, f p.closedUp = f p) (hc : ∀ c, f (.combinator c) = false) :
    (∀ ps, anywhereIn f (closedUpParts ps) = anywhereIn f ps) ∧
    ∀ ss, anywhereInAny f (closedUpAll ss) = anywhereInAny f ss := by
  refine Part.induct rfl ?_ rfl fun s ss hs ih => congrArg₂ or hs ih
  intro p ps hi ih
  rw [closedUpParts]
  split
  · rename_i hl
    have hp : p.anywhere f = false := by
      cases p with
      | combinator c => exact Bool.or_eq_false_iff.mpr ⟨hc c,rfl⟩
      | _ => cases hl
    rw [ih,anywhereIn,hp,Bool.false_or]
  · refine congrArg₂ or ?_ ih
    cases p with
    | pseudoClassOf name sels => exact congrArg₂ or (hf (.pseudoClassOf name sels)) hi
    | _ => rfl

lemma anywhere_closedUp (hf : ∀ p, f p.closedUp = f p) (hc : ∀ c, f (.combinator c) = false)
    (s : Selector) : s.closedUp.anywhere f = s.anywhere f := by
  rw [anywhere,anywhere,← anywhereIn_eq_any,← anywhereIn_eq_any]
  exact (anywhereIn_closedUp hf hc).1 s

end

lemma hasNesting_closedUp (s : Selector) : s.closedUp.hasNesting = s.hasNesting :=
  anywhere_closedUp (fun p => by cases p <;> rfl) (fun _ => rfl) s

section
variable {inner inner' : Context → Selector → Prop} {ctx : Context} {s : Selector}

lemma isChain_append {ps : List Part} (hpr : IsCompound inner ctx ps)
    (hs : IsChain inner ctx s) (hps : s.head?.any isPseudo) :
    IsChain inner ctx (ps ++ s) := by
  have hb {more : List Part} (hm : IsCompound inner ctx more)
      (hps : more.head?.any isPseudo) : IsCompound inner ctx (ps ++ more) := by
    obtain ⟨hne,hf,ht⟩ := hpr
    refine ⟨fun hn => hne (append_eq_nil_iff.mp hn).1,?_,?_⟩
    · exact forall_mem_append.mpr ⟨hf,hm.fits⟩
    · rw [tail_append_of_ne_nil hne]
      refine forall_mem_append.mpr ⟨ht,fun p hp => ?_⟩
      cases more with
      | nil => cases hp
      | cons q more =>
        rcases mem_cons.mp hp with rfl | hp
        · cases p with
          | universal => cases hps
          | element => cases hps
          | _ => rfl
        · exact hm.isType p hp
  cases hs with
  | compound hm => exact .compound (hb hm hps)
  | @combined more c rest hm hr =>
    have hps : more.head?.any isPseudo := by
      cases more with
      | nil => exact absurd rfl hm.nonempty
      | cons q more => exact hps
    rw [← append_assoc]
    exact .combined (hb hm hps) hr

lemma head?_closedUp (h : s.opens) : s.closedUp.head?.any isPseudo = s.head?.any isPseudo := by
  cases s with
  | nil => cases h
  | cons p s =>
    rw [closedUp_cons ((not_eq_true' _).mp h)]
    exact isPseudo_closedUp p

variable (hinner : ∀ ctx s, inner ctx s → inner' ctx s.closedUp)

include hinner

lemma fits_closedUp {p : Part} (h : p.Fits inner ctx) : p.closedUp.Fits inner' ctx := by
  cases h with
  | universal => exact .universal
  | element hn => exact .element hn
  | className hn => exact .className hn
  | idName hn => exact .idName hn
  | attr hn hv => exact .attr hn hv
  | pseudoClass hn hl => exact .pseudoClass hn hl
  | pseudoElement hn hl => exact .pseudoElement hn hl
  | @pseudoClassOf name sels hn hne h =>
    rw [Part.closedUp,closedUpAll_eq_map]
    refine .pseudoClassOf hn (fun hnl => hne (map_eq_nil_iff.mp hnl)) fun s hs => ?_
    obtain ⟨s,hm,rfl⟩ := mem_map.mp hs
    exact hinner _ s (h s hm)
  | nesting => exact .nesting
  | text ht =>
    cases p with
    | pseudoClassText => exact .text rfl
    | pseudoElementText => exact .text rfl
    | _ => cases ht

lemma isCompound_closedUp {ps : List Part} (h : IsCompound inner ctx ps) :
    IsCompound inner' ctx (ps.map Part.closedUp) where
  nonempty hn := h.nonempty (map_eq_nil_iff.mp hn)
  fits := forall_mem_map.mpr fun p hp => fits_closedUp hinner (h.fits p hp)
  isType := by
    rw [← map_tail]
    refine forall_mem_map.mpr fun p hp => ?_
    rw [Part.isType_closedUp]
    exact h.isType p hp

lemma isChain_closedUp (h : IsChain inner ctx s) : IsChain inner' ctx s.closedUp := by
  induction h with
  | @compound ps hpr =>
    rw [closedUp_of_simple fun p hp => (hpr.fits p hp).isCombinator]
    exact .compound (isCompound_closedUp hinner hpr)
  | @combined ps c rest hpr hr ih =>
    have hc := isCompound_closedUp hinner hpr
    rw [closedUp_compound fun p hp => (hpr.fits p hp).isCombinator,closedUp_combinator]
    split
    · rename_i hl
      refine isChain_append hc ih ?_
      rw [head?_closedUp hr.opens]
      exact ((Bool.and_eq_true _ _).mp hl).2
    · exact .combined hc ih

lemma isParsed_closedUp (h : IsParsed inner ctx s) : IsParsed inner' ctx s.closedUp := by
  obtain ⟨hcm,hns⟩ := h
  constructor
  · cases hcm with
    | chain hs => exact .chain (isChain_closedUp hinner hs)
    | @relative c s hct hc hs =>
      have hl : isLost c s = false := by
        rw [isLost,beq_false_of_ne hc]; rfl
      rw [closedUp_combinator,hl]
      exact .relative hct hc (isChain_closedUp hinner hs)
  · intro ts
    have h := hns ts
    rw [checkNesting_eq_ok_iff,hasNesting_closedUp]
    rcases checkNesting_eq_ok_iff.mp h with ⟨hh,ha,-⟩ | ⟨hn,hr,heq⟩
    · exact .inl ⟨hh,ha,rfl⟩
    · refine .inr ⟨hn,hr,?_⟩
      cases hi : ctx.implicit with
      | true =>
        -- The reference that is added would be there already.
        rw [hi] at heq
        rw [heq] at hn
        exact absurd (hasNesting_relativeToParent s) (eq_false_iff.mp hn)
      | false => rfl

end

lemma reads_closedUp {ctx : Context} (s : Selector)
    (h : IsParsed (fun ctx s => Reads true ctx s.closedUp) ctx s) : Reads true ctx s.closedUp :=
  reads_of_isParsed s.closedUp (isParsed_closedUp (fun _ _ hs => hs) h)

end Selector
end Css
