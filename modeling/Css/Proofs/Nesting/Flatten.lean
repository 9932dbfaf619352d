import Css.Proofs.Nesting.Substitution
import Css.Proofs.Rule.Parsed
import Css.Sheet.Transform
import Mathlib.Data.List.Forall2

/-!
# What flattened rules select

A flattened rule selects what the nested rule selects for some choice of one selector of each enclosing
rule.
-/
namespace Css
open List Rule.isScoped Rule.flatten
open Bool (and_eq_true)

structure PlacedBlock where
  block : StyleBlock
  outer : List (List Selector)

def Rule.blocks (outer : List (List Selector)) : Rule → List PlacedBlock
  | style b rules => own outer b ++ blocksOf (b.selectors :: outer) rules
  | nest b rules => own outer b ++ blocksOf (b.selectors :: outer) rules
  | group _ rules _ => blocksOf outer rules
  | statement .. => []
where
  own (outer : List (List Selector)) (b : StyleBlock) : List PlacedBlock :=
    if b.declarations.isEmpty && b.composes.isEmpty then [] else [⟨b,outer⟩]
  blocksOf (outer : List (List Selector)) : List Rule → List PlacedBlock
    | [] => []
    | r :: rs => r.blocks outer ++ blocksOf outer rs

namespace Selector

/-- What a rule with these selectors selects, inside of rules with the selectors `outer`: the
reference to a rule stands for all that it selects. -/
def nestedSelects (doc : Document) (sels : List Selector) : List (List Selector) → doc.Element → Prop
  | [], y => ∃ s ∈ sels, s.selects doc y
  | enclosing :: outer, y =>
    ∃ s ∈ sels, s.selectsIn doc (nestedSelects doc enclosing outer) y

/-- What such a rule selects for each choice of one selector of each rule: the reference to a rule
stands for what the chosen selector selects. -/
def choices (doc : Document) (sels : List Selector) : List (List Selector) → List (doc.Element → Prop)
  | [] => sels.map (selects doc)
  | enclosing :: outer =>
    (choices doc enclosing outer).flatMap fun scope => sels.map (selectsIn doc scope)

def flat (sels : List Selector) : List (List Selector) → List Selector
  | [] => sels
  | enclosing :: outer => resolveAll (flat enclosing outer) sels

/-- Whether a choice makes no difference: wherever there is one, each selector refers to the enclosing
rule once, and under no negation. -/
def isFaithful (sels : List Selector) : List (List Selector) → Bool
  | [] => true
  | enclosing :: outer =>
    (sels.all distributes || (enclosing :: outer).all fun ss => ss.length == 1) && isFaithful enclosing outer

end Selector

namespace PlacedBlock

def selects (doc : Document) (b : PlacedBlock) : doc.Element → Prop :=
  Selector.nestedSelects doc b.block.selectors b.outer

def choices (doc : Document) (b : PlacedBlock) : List (doc.Element → Prop) :=
  Selector.choices doc b.block.selectors b.outer

def isFaithful (b : PlacedBlock) : Bool := Selector.isFaithful b.block.selectors b.outer

def allSelectors (f : Selector → Bool) (b : PlacedBlock) : Bool :=
  (b.block.selectors :: b.outer).all fun sels => sels.all f

def flat (b : PlacedBlock) : PlacedBlock := ⟨{ b.block with selectors := Selector.flat b.block.selectors b.outer },[]⟩

end PlacedBlock

lemma Rule.blocksOf_append (outer : List (List Selector)) (rs ss : List Rule) :
    blocks.blocksOf outer (rs ++ ss) = blocks.blocksOf outer rs ++ blocks.blocksOf outer ss := by
  induction rs with
  | nil => rfl
  | cons r rs ih => simp [blocks.blocksOf,ih]

def flatParents : List (List Selector) → Option (List Selector)
  | [] => none
  | enclosing :: outer => some (Selector.flat enclosing outer)

lemma blocksOf_alone (b : StyleBlock) (outer : List (List Selector)) :
    Rule.blocks.blocksOf [] (b.alone (Selector.flat b.selectors outer)) =
      (Rule.blocks.own outer b).map PlacedBlock.flat := by
  unfold StyleBlock.alone Rule.blocks.own
  split
  · rfl
  · rename_i h
    simp only [Rule.blocks.blocksOf,Rule.blocks,Rule.blocks.own,append_nil]
    rw [if_neg h]; rfl

lemma Selector.areScoped_iff {inStyle : Bool} {sels : List Selector} : areScoped inStyle sels ↔
      sels ≠ [] ∧ ∀ s ∈ sels, s.hasNesting = inStyle := by
  simp [areScoped]

lemma Selector.any_hasNesting_of_areScoped {sels : List Selector}
    (h : areScoped false sels) : sels.any hasNesting = false := by
  rw [any_eq_false]
  intro s hs
  simp [(areScoped_iff.mp h).2 s hs]

def StyleBlock.selectorsIn (parents : Option (List Selector)) (b : StyleBlock) : List Selector :=
  match parents with
  | some parents => Selector.resolveAll parents b.selectors
  | none => b.selectors

lemma StyleBlock.resolve_eq_selectorsIn {qs : Option (List Selector)} {b : StyleBlock}
    (h : Selector.areScoped qs.isSome b.selectors) : b.resolve qs = .ok (b.selectorsIn qs) := by
  cases qs with
  | some qs => rfl
  | none =>
    simp only [resolve,Selector.any_hasNesting_of_areScoped h]
    rfl

namespace Rule
open blocks

def unnest (parents : Option (List Selector)) : Rule → List Rule
  | style b rules =>
    b.alone (b.selectorsIn parents) ++ unnestAll (some (b.selectorsIn parents)) rules
  | nest b rules =>
    b.alone (b.selectorsIn parents) ++ unnestAll (some (b.selectorsIn parents)) rules
  | group g rules location => [group g (unnestAll parents rules) location]
  | statement s location => [statement s location]
where
  unnestAll (parents : Option (List Selector)) : List Rule → List Rule
    | [] => []
    | r :: rs => r.unnest parents ++ unnestAll parents rs

lemma flattenAll_eq_unnestAll (rules : List Rule) (parents : Option (List Selector))
    (h : allScoped parents.isSome rules) :
    flattenAll parents rules = .ok (unnest.unnestAll parents rules) := by
  induction rules using induct generalizing parents with
  | nil => rfl
  | cons r rs hr ih =>
    rw [allScoped,and_eq_true] at h
    have hf : r.flatten parents = .ok (r.unnest parents) := by
      replace h := h.1
      cases r with
      | style b =>
        rw [isScoped,and_eq_true] at h
        rw [flatten,StyleBlock.resolve_eq_selectorsIn h.1]
        simp only [bind,Except.bind]
        rw [hr (some (b.selectorsIn parents)) h.2]; rfl
      | nest b =>
        rw [isScoped,and_eq_true,and_eq_true] at h
        obtain ⟨⟨hp,hs⟩,h⟩ := h
        rw [flatten,if_pos hp,StyleBlock.resolve_eq_selectorsIn (by rw [hp]; exact hs)]
        simp only [bind,Except.bind]
        rw [hr (some (b.selectorsIn parents)) h]; rfl
      | group =>
        rw [flatten,hr parents h]; rfl
      | statement => rfl
    rw [flattenAll,hf,ih parents h.2]; rfl

lemma flattenAll_blocks (rs : List Rule) (outer : List (List Selector)) (h : allScoped (!outer.isEmpty) rs) :
    ∃ rules, flattenAll (flatParents outer) rs = .ok rules ∧
      blocksOf [] rules = (blocksOf outer rs).map PlacedBlock.flat := by
  refine ⟨_,flattenAll_eq_unnestAll rs _ (by cases outer <;> exact h),?_⟩
  clear h
  induction rs using induct generalizing outer with
  | nil => rfl
  | cons r rs hr ih =>
    rw [unnest.unnestAll,blocksOf_append,ih outer,blocksOf,map_append]
    congr 1
    cases r with
    | style b | nest b =>
      have hs : b.selectorsIn (flatParents outer) = Selector.flat b.selectors outer := by
        cases outer <;> rfl
      rw [unnest,hs,blocksOf_append,blocksOf_alone,blocks,map_append]
      exact congrArg _ (hr (b.selectors :: outer))
    | group =>
      rw [unnest,blocksOf,blocks,blocksOf,append_nil]
      exact hr outer
    | statement => rfl

lemma forall_mem_own {P : PlacedBlock → Prop} {b : StyleBlock} {outer : List (List Selector)}
    (h : P ⟨b,outer⟩) : ∀ p ∈ blocks.own outer b, P p := by
  unfold blocks.own
  split
  · exact forall_mem_nil _
  · exact forall_mem_singleton.mpr h

end Rule

def chainScoped : List (List Selector) → Bool
  | [] => true
  | sels :: outer => Selector.areScoped (!outer.isEmpty) sels && chainScoped outer

lemma Rule.chainScoped_blocksOf (rs : List Rule) (outer : List (List Selector))
    (h : isScoped.allScoped (!outer.isEmpty) rs) (ho : chainScoped outer) :
    ∀ p ∈ blocks.blocksOf outer rs, chainScoped (p.block.selectors :: p.outer) := by
  induction rs using induct generalizing outer with
  | nil => exact forall_mem_nil _
  | cons r rs hr ih =>
    rw [isScoped.allScoped,and_eq_true] at h
    refine forall_mem_append.mpr ⟨?_,ih outer h.2 ho⟩
    replace h := h.1
    cases r with
    | style b =>
      rw [isScoped,and_eq_true] at h
      have hc : chainScoped (b.selectors :: outer) := by
        rw [chainScoped,h.1,ho]; rfl
      exact forall_mem_append.mpr ⟨forall_mem_own hc,hr _ h.2 hc⟩
    | nest b =>
      rw [isScoped,and_eq_true,and_eq_true] at h
      have hc : chainScoped (b.selectors :: outer) := by
        rw [chainScoped,h.1.1,h.1.2,ho]; rfl
      exact forall_mem_append.mpr ⟨forall_mem_own hc,hr _ h.2 hc⟩
    | group => exact hr outer h ho
    | statement => exact forall_mem_nil _

namespace Selector
variable {sels : List Selector}

lemma mem_resolveAll {qs cs : List Selector} {s : Selector} : s ∈ resolveAll qs cs ↔
      ∃ parent ∈ qs, ∃ child ∈ cs, resolve parent child = s := by
  simp [resolveAll,mem_addNew]

variable {outer : List (List Selector)}

lemma hasNesting_flat (hsc : chainScoped (sels :: outer)) (hp : ∀ ss ∈ sels :: outer, ∀ s ∈ ss, s.isPlain) :
    ∀ s ∈ flat sels outer, s.hasNesting = false := by
  induction outer generalizing sels with
  | nil =>
    simp only [chainScoped,Bool.and_true] at hsc
    exact (areScoped_iff.mp hsc).2
  | cons enclosing outer ih =>
    rw [chainScoped,and_eq_true] at hsc
    intro s hs
    obtain ⟨parent,hpr,child,hc,rfl⟩ := mem_resolveAll.mp hs
    apply hasNesting_resolve
    · exact ih hsc.2 (fun ss hss => hp ss (mem_cons_of_mem _ hss)) parent hpr
    · exact Part.listKeeps_of_listPlain.1 child (hp sels mem_cons_self child hc)

variable {doc : Document}

lemma mem_choices_iff (hs : chainScoped (sels :: outer)) (hpl : ∀ ss ∈ sels :: outer, ∀ s ∈ ss, s.isPlain)
    (hr : ∀ ss ∈ sels :: outer, ∀ s ∈ ss, s.isRelative = false) (f : doc.Element → Prop) :
    f ∈ choices doc sels outer ↔ ∃ s ∈ flat sels outer, s.selects doc = f := by
  induction outer generalizing sels f with
  | nil => simp [choices,flat]
  | cons enclosing outer ih =>
    rw [chainScoped,and_eq_true] at hs
    have hpl' : ∀ ss ∈ enclosing :: outer, ∀ s ∈ ss, s.isPlain := fun ss hss => hpl ss (mem_cons_of_mem _ hss)
    have hr' : ∀ ss ∈ enclosing :: outer, ∀ s ∈ ss, s.isRelative = false := fun ss hss => hr ss (mem_cons_of_mem _ hss)
    have hrs : ∀ parent ∈ flat enclosing outer, ∀ child ∈ sels,
        (resolve parent child).selects doc = child.selectsIn doc (parent.selects doc) := by
      intro parent hp child hc
      apply selects_resolve
      · exact hasNesting_flat hs.2 hpl' parent hp
      · exact (areScoped_iff.mp hs.1).2 child hc
      · exact hr sels mem_cons_self child hc
    simp only [choices,flat,mem_flatMap,mem_map,mem_resolveAll]
    constructor
    · intro hsm
      obtain ⟨scope,hsc,child,hc,rfl⟩ := hsm
      obtain ⟨parent,hp,rfl⟩ := (ih hs.2 hpl' hr' scope).mp hsc
      exact ⟨_,⟨parent,hp,child,hc,rfl⟩,hrs parent hp child hc⟩
    · intro hsm
      obtain ⟨_,⟨parent,hp,child,hc,rfl⟩,rfl⟩ := hsm
      refine ⟨parent.selects doc,(ih hs.2 hpl' hr' _).mpr ⟨parent,hp,rfl⟩,?_⟩
      exact ⟨child,hc,(hrs parent hp child hc).symm⟩

lemma choices_ne_nil (hsc : chainScoped (sels :: outer)) : choices doc sels outer ≠ [] := by
  induction outer generalizing sels with
  | nil =>
    rw [chainScoped,and_eq_true] at hsc
    simpa [choices] using (areScoped_iff.mp hsc.1).1
  | cons enclosing outer ih =>
    rw [chainScoped,and_eq_true] at hsc
    have hsl := (areScoped_iff.mp hsc.1).1
    obtain ⟨scope,hse⟩ := exists_mem_of_ne_nil _ (ih hsc.2)
    obtain ⟨s,hs⟩ := exists_mem_of_ne_nil _ hsl
    apply ne_nil_of_mem (a := s.selectsIn doc scope)
    exact mem_flatMap.mpr ⟨scope,hse,mem_map.mpr ⟨s,hs,rfl⟩⟩

lemma choices_eq_singleton (h : ((sels :: outer).all fun ss => ss.length == 1)) : ∃ f, choices doc sels outer = [f] := by
  induction outer generalizing sels with
  | nil =>
    simp only [all_cons,and_eq_true,beq_iff_eq] at h
    obtain ⟨s,rfl⟩ := length_eq_one_iff.mp h.1
    exact ⟨s.selects doc,rfl⟩
  | cons enclosing outer ih =>
    rw [all_cons,and_eq_true,beq_iff_eq] at h
    obtain ⟨s,rfl⟩ := length_eq_one_iff.mp h.1
    obtain ⟨f,hf⟩ := ih h.2
    exact ⟨s.selectsIn doc f,by rw [choices,hf]; rfl⟩

lemma nestedSelects_of_isFaithful (hsc : chainScoped (sels :: outer))
    (hr : ∀ ss ∈ sels :: outer, ∀ s ∈ ss, s.isRelative = false)
    (hft : isFaithful sels outer) :
    nestedSelects doc sels outer = fun y => ∃ f ∈ choices doc sels outer, f y := by
  induction outer generalizing sels with
  | nil =>
    funext y
    simp [nestedSelects,choices]
  | cons enclosing outer ih =>
    rw [chainScoped,and_eq_true] at hsc
    rw [isFaithful,and_eq_true,Bool.or_eq_true] at hft
    have hr' : ∀ ss ∈ enclosing :: outer, ∀ s ∈ ss, s.isRelative = false := fun ss hss => hr ss (mem_cons_of_mem _ hss)
    have ih := ih hsc.2 hr' hft.2
    have hc : ∀ s ∈ sels, s.selectsIn doc (nestedSelects doc enclosing outer) =
        fun y => ∃ scope ∈ choices doc enclosing outer, s.selectsIn doc scope y := by
      intro s hs
      rw [ih]
      rcases hft.1 with hd | ho
      · apply selectsIn_of_distributes (choices_ne_nil hsc.2)
        · exact (areScoped_iff.mp hsc.1).2 s hs
        · exact hr sels mem_cons_self s hs
        · exact all_eq_true.mp hd s hs
      · obtain ⟨f,hf⟩ : ∃ f, choices doc enclosing outer = [f] := choices_eq_singleton ho
        simp [hf]
    funext y
    apply propext
    simp only [nestedSelects,choices,mem_flatMap,mem_map]
    constructor
    · intro hsm
      obtain ⟨s,hs,hy⟩ := hsm
      rw [hc s hs] at hy
      obtain ⟨scope,hse,hy⟩ := hy
      exact ⟨_,⟨scope,hse,s,hs,rfl⟩,hy⟩
    · intro hsm
      obtain ⟨_,⟨scope,hse,s,hs,rfl⟩,hy⟩ := hsm
      refine ⟨s,hs,?_⟩
      rw [hc s hs]
      exact ⟨scope,hse,hy⟩

end Selector

/-- The rules of a source can be flattened, and each of them that says something becomes one that says
the same. It selects what the nested rule selects for some choice of one selector of each rule, and
so what the nested rule selects if a choice makes no difference. -/
theorem Rule.flattenList_selects {source : String} {options : ParseOptions} {sheet : StyleSheet}
    (h : StyleSheet.parse source options = .ok sheet) :
    ∃ flattened, Rule.flattenList sheet.rules = .ok flattened ∧ List.Forall₂
        (fun b b' : PlacedBlock =>
          b'.outer = [] ∧ b'.block = { b.block with selectors := b'.block.selectors } ∧
            (b.allSelectors Selector.isPlain = true →
              b.allSelectors (fun s => !s.isRelative) = true → ∀ (doc : Document) (e : doc.Element),
                  (b'.selects doc e ↔ ∃ chosen ∈ b.choices doc, chosen e) ∧
                    (b.isFaithful = true → (b'.selects doc e ↔ b.selects doc e))))
        (Rule.blocks.blocksOf [] sheet.rules) (Rule.blocks.blocksOf [] flattened) := by
  have hscoped := StyleSheet.allScoped_rules h
  obtain ⟨flattened, hflat, hblocks⟩ := Rule.flattenAll_blocks sheet.rules [] hscoped
  refine ⟨flattened, hflat, ?_⟩
  rw [hblocks, forall₂_map_right_iff, forall₂_same]
  intro b hb
  have hchain := Rule.chainScoped_blocksOf sheet.rules [] hscoped rfl b hb
  refine ⟨rfl, rfl, ?_⟩
  intro hplain hrel doc e
  simp only [PlacedBlock.allSelectors, all_eq_true, Bool.not_eq_true'] at hplain hrel
  have hchosen : b.flat.selects doc e ↔ ∃ chosen ∈ b.choices doc, chosen e := by
    constructor
    · intro hsome
      obtain ⟨s, hs, he⟩ := hsome
      exact ⟨_, (Selector.mem_choices_iff hchain hplain hrel _).mpr ⟨s, hs, rfl⟩, he⟩
    · intro hsome
      obtain ⟨_, hf, he⟩ := hsome
      obtain ⟨s, hs, rfl⟩ := (Selector.mem_choices_iff hchain hplain hrel _).mp hf
      exact ⟨s, hs, he⟩
  refine ⟨hchosen, ?_⟩
  intro hfaithful
  have hnested : b.selects doc = fun y => ∃ chosen ∈ b.choices doc, chosen y :=
    Selector.nestedSelects_of_isFaithful hchain hrel hfaithful
  rw [hchosen, hnested]

/-- Of `.a,.b{.c &{:is(&,.d)>.e{x:y}}}`, where each reference stands alone, the flattened rule selects
what the nested one selects. -/
theorem Rule.flattenList_selects_single_references : ∃ sheet flattened,
      StyleSheet.parse ".a,.b\x7b.c &\x7b:is(&,.d)>.e\x7bx:y\x7d\x7d\x7d" {} = .ok sheet ∧
        Rule.flattenList sheet.rules = .ok flattened ∧
          (Rule.blocks.blocksOf [] sheet.rules).length = 1 ∧ List.Forall₂
              (fun b b' : PlacedBlock =>
                ∀ (doc : Document) (e : doc.Element), b'.selects doc e ↔ b.selects doc e)
              (Rule.blocks.blocksOf [] sheet.rules) (Rule.blocks.blocksOf [] flattened) := by
  have hcheck : (match StyleSheet.parse ".a,.b\x7b.c &\x7b:is(&,.d)>.e\x7bx:y\x7d\x7d\x7d" {} with
        | .ok sheet =>
          (Rule.blocks.blocksOf [] sheet.rules).length == 1 &&
            (Rule.blocks.blocksOf [] sheet.rules).all fun b =>
              b.allSelectors Selector.isPlain && b.allSelectors (fun s => !s.isRelative) &&
                b.isFaithful
        | .error _ => false) = true := by
    decide +kernel
  cases hparse : StyleSheet.parse ".a,.b\x7b.c &\x7b:is(&,.d)>.e\x7bx:y\x7d\x7d\x7d" {} with
  | error e =>
    rw [hparse] at hcheck
    cases hcheck
  | ok sheet =>
    rw [hparse] at hcheck
    simp only [Bool.and_eq_true, beq_iff_eq, all_eq_true] at hcheck
    obtain ⟨flattened, hflat, hpairs⟩ := Rule.flattenList_selects hparse
    refine ⟨sheet, flattened, rfl, hflat, hcheck.1, ?_⟩
    have hmem := (forall₂_and_left _ _).mpr ⟨hcheck.2, hpairs⟩
    refine hmem.imp ?_
    intro b b' hpair doc e
    obtain ⟨⟨⟨hplain, hrel⟩, hfaithful⟩, _, _, hselects⟩ := hpair
    exact (hselects hplain hrel doc e).2 hfaithful

def pairDocument : Document where
  Element := Bool
  parent inner := if inner then some false else none
  previous _ := none
  hasName _ _ := False
  hasClass inner name := name = if inner then "b" else "a"
  hasId _ _ := False
  hasAttribute _ _ _ := False

lemma pairDocument_outer {x : Bool} (h : pairDocument.leads .descendant x true) : x = false := by
  have hr : ∀ y : Bool, pairDocument.parent false ≠ some y := by
    intro y hy
    cases hy
  cases h with
  | single h => exact (Option.some.inj h).symm
  | tail hb hl =>
    cases hl
    cases hb with
    | single h => exact absurd h (hr x)
    | tail _ h => exact absurd h (hr _)

/-- Of `.a,.b{& &{x:y}}` the flattened rule does not select an element of class `b` inside of one of
class `a`: it has the selectors `.a .a` and `.b .b` only. -/
theorem Rule.flattenList_selects_less :
    ∃ sheet flattened, StyleSheet.parse ".a,.b\x7b& &\x7bx:y\x7d\x7d" {} = .ok sheet ∧
      Rule.flattenList sheet.rules = .ok flattened ∧ ∃ (doc : Document) (e : doc.Element),
          (∃ b ∈ Rule.blocks.blocksOf [] sheet.rules, b.selects doc e) ∧
            ¬∃ b ∈ Rule.blocks.blocksOf [] flattened, b.selects doc e := by
  have hcheck : (match StyleSheet.parse ".a,.b\x7b& &\x7bx:y\x7d\x7d" {} with
        | .ok sheet =>
          match Rule.flattenList sheet.rules with
          | .ok flattened =>
            decide ((Rule.blocks.blocksOf [] sheet.rules).map
                (fun b => (b.block.selectors, b.outer)) =
                  [([[.nesting, .combinator .descendant, .nesting]],
                    [[[.className "a"], [.className "b"]]])]) &&
              decide ((Rule.blocks.blocksOf [] flattened).map
                (fun b => (b.block.selectors, b.outer)) =
                  [([[.className "a", .combinator .descendant, .className "a"],
                     [.className "b", .combinator .descendant, .className "b"]], [])])
          | .error _ => false
        | .error _ => false) = true := by
    decide +kernel
  cases hparse : StyleSheet.parse ".a,.b\x7b& &\x7bx:y\x7d\x7d" {} with
  | error e =>
    rw [hparse] at hcheck
    cases hcheck
  | ok sheet =>
    rw [hparse] at hcheck
    cases hflat : Rule.flattenList sheet.rules with
    | error location =>
      simp only [hflat] at hcheck
      cases hcheck
    | ok flattened =>
      simp only [hflat, Bool.and_eq_true, decide_eq_true_eq] at hcheck
      obtain ⟨b, hb, hlists⟩ := map_eq_singleton_iff.mp hcheck.1
      obtain ⟨b', hb', hlists'⟩ := map_eq_singleton_iff.mp hcheck.2
      refine ⟨sheet, flattened, rfl, hflat, pairDocument, true, ?_, ?_⟩
      · refine ⟨b, by simp [hb], ?_⟩
        rw [PlacedBlock.selects, (Prod.mk.inj hlists).1, (Prod.mk.inj hlists).2]
        refine ⟨_, mem_singleton_self _, ?_⟩
        refine ⟨⟨false, .single rfl, trivial, ?_⟩, ?_⟩
        · exact ⟨[.className "a"], by decide, trivial, rfl⟩
        · exact ⟨[.className "b"], by decide, trivial, rfl⟩
      · intro hsome
        obtain ⟨c, hc, hselects⟩ := hsome
        rw [hb', mem_singleton] at hc
        subst hc
        rw [PlacedBlock.selects, (Prod.mk.inj hlists').1, (Prod.mk.inj hlists').2] at hselects
        obtain ⟨s, hs, hs'⟩ := hselects
        simp only [mem_cons, not_mem_nil, or_false] at hs
        rcases hs with rfl | rfl
        · obtain ⟨_, hright⟩ := hs'
          have hright : "a" = "b" := hright
          exact absurd hright (by decide)
        · obtain ⟨⟨x, hx, _, hleft⟩, _⟩ := hs'
          rw [pairDocument_outer hx] at hleft
          have hleft : "b" = "a" := hleft
          exact absurd hleft (by decide)

end Css

namespace Css
open Rule.unnest Rule.isScoped Rule

def StyleBlock.isQuiet (b : StyleBlock) : Bool := b.declarations.isEmpty && b.composes.isEmpty

namespace Rule

lemma unnestAll_append (qs : Option (List Selector)) (rs ss : List Rule) :
    unnestAll qs (rs ++ ss) = unnestAll qs rs ++ unnestAll qs ss := by
  induction rs with
  | nil => rfl
  | cons r rs ih =>
    rw [List.cons_append,unnestAll,unnestAll,ih,List.append_assoc]

lemma blocksOf_unnestAll {rs : List Rule} (h : allScoped false rs) : blocks.blocksOf [] (unnestAll none rs) =
      (blocks.blocksOf [] rs).map PlacedBlock.flat := by
  obtain ⟨flattened,hf,hb⟩ := flattenAll_blocks rs [] h
  have heq := flattenAll_eq_unnestAll rs none h
  cases hf.symm.trans heq
  exact hb

lemma checkAll_of_allScoped {rules : List Rule} (h : allScoped false rules) : checkNesting.checkAll rules = .ok () := by
  induction rules using induct with
  | nil => rfl
  | cons r rs hr ih =>
    rw [allScoped,Bool.and_eq_true] at h
    have hc : r.checkNesting = .ok () := by
      replace h := h.1
      cases r with
      | style =>
        rw [isScoped,Bool.and_eq_true] at h
        rw [checkNesting,Selector.any_hasNesting_of_areScoped h.1]; rfl
      | nest => cases h
      | group => exact hr h
      | statement => rfl
    rw [checkNesting.checkAll,hc]
    exact ih h.2

def forNesting (targets : Targets) (rules : List Rule) : List Rule :=
  if Feature.nesting.isCompatible targets then rules else unnestAll none rules

end Rule

lemma StyleSheet.resolveNesting_eq (sheet : StyleSheet) (tgts : Targets) {rs : List Rule}
    (h : Rule.Holds.AllHold Checks.scoped .top rs) :
    sheet.resolveNesting tgts rs = .ok (forNesting tgts rs) := by
  have hs := allScoped_of_allHold rs .top h
  unfold resolveNesting forNesting
  split
  · rw [checkAll_of_allScoped hs]; rfl
  · rw [flattenList,flattenAll_eq_unnestAll rs none hs]; rfl

end Css
