import Css.Proofs.Modules.Lowering
import Css.Proofs.Nesting.Names

/-!
# Names in rules without nesting

What is unused can be removed before the rules are flattened as well as after that.
-/
namespace Css
open List
open Rule.removeUnused? Rule.occurrences Rule.unnest Part.carries Rule.isScoped Rule.blocks Bool Selector Css.Part StyleBlock Occurrence

lemma Statement.occurrences_of_isAllowed {s : Statement} (h : s.isAllowed .style)
    (dashed : Bool) : s.occurrences dashed = [] := by
  cases s with
  | layers _ | unknown _ _ _ | importSheet _ _ _ _ | namespaceOf _ _ | customMedia _ _ => rfl
  | keyframes _ _ _ _ | property _ _ | fontFace _ | page _ _ => cases h

namespace Rule

/-- Whether nested selectors refer to the enclosing rule by themselves, and not only in an argument,
and no rule that names the enclosing one explicitly does nothing but compose classes. -/
def isDirect (nested : Bool) : Rule → Bool
  | style b rules =>
    (!nested || b.selectors.all (·.any Part.isNesting)) && allDirect true rules
  | nest b rules =>
    b.selectors.all (·.any Part.isNesting) && (!b.declarations.isEmpty || b.composes.isEmpty) && allDirect true rules
  | group _ rules _ => allDirect nested rules
  | statement .. => true
where
  allDirect (nested : Bool) : List Rule → Bool
    | [] => true
    | r :: rs => r.isDirect nested && allDirect nested rs

open isDirect

section
variable {unused : List String} {dashed : Bool}

lemma removeFrom_alone (b : StyleBlock) (selectors : List Selector) : removeFrom unused (b.alone selectors) =
      bif (keep unused selectors).isEmpty then []
      else b.alone (keep unused selectors) := by
  unfold alone
  split
  · cases (keep unused selectors).isEmpty <;> rfl
  · have hk : (keepSelectors unused { b with selectors }).selectors = keep unused selectors := rfl
    rw [removeFrom_cons,removeUnused?_style,hk]
    cases (keep unused selectors).isEmpty <;> rfl

variable {b : StyleBlock}

lemma selectorsIn_direct {parents : List Selector} (h : b.selectors.all (·.any isNesting)) :
    keep unused (b.selectorsIn (some parents)) = resolveAll (keep unused parents) (keep unused b.selectors) :=
  keep_resolveAll (all_eq_true.mp h) parents

lemma occurrencesIn_removeFrom_group (g : Group) (rs : List Rule) (loc : Location) :
    occurrencesIn dashed (removeFrom unused [group g rs loc]) = occurrencesIn dashed (removeFrom unused rs) := by
  rw [removeFrom_cons,removeUnused?_group]
  cases h : isEmptied rs (removeFrom unused rs) with
  | true =>
    rw [isEmptied,and_eq_true,List.isEmpty_iff] at h
    rw [h.2]; rfl
  | false => exact append_nil _

lemma occurrencesIn_unnestAll_of_keep_eq_nil {rules : List Rule} {parents : List Selector} (hp : keep unused parents = [])
    (hr : Holds.AllHold Checks.parsed .style rules) (hd : allDirect true rules) :
    occurrencesIn dashed (removeFrom unused (unnestAll (some parents) rules)) = [] := by
  induction rules using induct generalizing parents with
  | nil => rfl
  | cons r rs ihr ih =>
    obtain ⟨hr,hrs⟩ := hr
    rw [allDirect,and_eq_true] at hd
    rw [unnestAll,removeFrom_append,occurrencesIn_append,ih hp hrs hd.2,append_nil]
    replace hd := hd.1
    have hk {b : StyleBlock} (hb : b.selectors.all (·.any isNesting)) :
        keep unused (b.selectorsIn (some parents)) = [] := by
      rw [selectorsIn_direct hb,hp]; rfl
    cases r with
    | style =>
      rw [isDirect,Bool.not_true,Bool.false_or,and_eq_true] at hd
      rw [unnest,removeFrom_append,occurrencesIn_append,removeFrom_alone,hk hd.1,ihr (hk hd.1) hr.2 hd.2]
      rfl
    | nest =>
      rw [isDirect,and_eq_true,and_eq_true] at hd
      rw [unnest,removeFrom_append,occurrencesIn_append,removeFrom_alone,hk hd.1.1,ihr (hk hd.1.1) hr.2.2 hd.2]
      rfl
    | group =>
      rw [unnest,occurrencesIn_removeFrom_group]
      exact ihr hp hr.2 hd
    | statement =>
      rw [unnest,removeFrom_cons,removeUnused?_statement]
      split
      · rfl
      · exact (append_nil _).trans (Statement.occurrences_of_isAllowed hr.1 dashed)

lemma occurrencesIn_removeFrom_block (node : StyleBlock → List Rule → Rule)
    (hnd : ∀ b rs parents, (node b rs).unnest parents = b.alone (b.selectorsIn parents) ++ unnestAll (some (b.selectorsIn parents)) rs)
    {rs : List Rule} {parents : Option (List Selector)} (isQuiet : Bool)
    (hr : (node b rs).removeUnused? unused = bif (keep unused b.selectors).isEmpty || (isEmptied rs (removeFrom unused rs) && isQuiet) then none else some (node (keepSelectors unused b) (removeFrom unused rs)))
    (hq : isQuiet → (b.declarations.isEmpty && b.composes.isEmpty))
    (hk : keep unused (b.selectorsIn parents) = (keepSelectors unused b).selectorsIn (parents.map (keep unused)))
    (hn : keep unused (b.selectorsIn parents) = [] ↔ keep unused b.selectors = [])
    (hl : keep unused (b.selectorsIn parents) ≠ [] → occurrencesIn dashed (removeFrom unused (unnestAll (some (b.selectorsIn parents)) rs)) = occurrencesIn dashed (unnestAll (some (keep unused (b.selectorsIn parents))) (removeFrom unused rs)))
    (hg : keep unused (b.selectorsIn parents) = [] → occurrencesIn dashed (removeFrom unused (unnestAll (some (b.selectorsIn parents)) rs)) = []) :
    occurrencesIn dashed (removeFrom unused ((node b rs).unnest parents)) =
      occurrencesIn dashed (unnestAll (parents.map (keep unused)) ((node b rs).removeUnused? unused).toList) := by
  rw [hnd,removeFrom_append,occurrencesIn_append,removeFrom_alone,hr]
  by_cases he : keep unused b.selectors = []
  · rw [hg (hn.mpr he),hn.mpr he,he]; rfl
  · have hs : keep unused (b.selectorsIn parents) ≠ [] := fun h => he (hn.mp h)
    rw [hl hs,isEmpty_eq_false_iff.mpr hs,isEmpty_eq_false_iff.mpr he,Bool.false_or,cond_false]
    cases hd : isEmptied rs (removeFrom unused rs) && isQuiet with
    | true =>
      -- The rule says nothing and has had rules inside of it, of which none is left.
      rw [and_eq_true,isEmptied,and_eq_true,List.isEmpty_iff] at hd
      rw [alone,if_pos (hq hd.2),hd.1.2]; rfl
    | false =>
      rw [cond_false,Option.toList_some,unnestAll,hnd,← hk,unnestAll,append_nil,occurrencesIn_append]
      rfl

lemma keep_selectorsIn_eq_nil {parents : Option (List Selector)} (hp : ∀ ps ∈ parents, keep unused ps ≠ [])
    (hk : keep unused (b.selectorsIn parents) = (keepSelectors unused b).selectorsIn (parents.map (keep unused))) :
    keep unused (b.selectorsIn parents) = [] ↔ keep unused b.selectors = [] := by
  cases parents with
  | none => rfl
  | some ps =>
    rw [hk]
    exact (resolveAll_eq_nil_iff ..).trans (or_iff_right (hp ps rfl))

/-- To remove what is unused and to flatten what is left leaves the same names as to flatten all and to
remove then. -/
lemma occurrencesIn_removeFrom_unnestAll (rules : List Rule) (scope : Scope)
    (parents : Option (List Selector)) (hp : ∀ ps ∈ parents, keep unused ps ≠ [])
    (hr : Holds.AllHold Checks.parsed scope rules) (hd : allDirect parents.isSome rules) :
    occurrencesIn dashed (removeFrom unused (unnestAll parents rules)) =
      occurrencesIn dashed (unnestAll (parents.map (keep unused)) (removeFrom unused rules)) := by
  induction rules using induct generalizing scope parents with
  | nil => rfl
  | cons r rs ihr ih =>
    obtain ⟨hr,hrs⟩ := hr
    rw [allDirect,and_eq_true] at hd
    rw [unnestAll,removeFrom_append,occurrencesIn_append,ih scope parents hp hrs hd.2,
      removeFrom_cons,unnestAll_append,occurrencesIn_append]
    congr 1
    replace hd := hd.1
    have hk {b : StyleBlock} (hb : parents.isSome → b.selectors.all (·.any isNesting)) :
        keep unused (b.selectorsIn parents) = (keepSelectors unused b).selectorsIn (parents.map (keep unused)) := by
      cases parents with
      | none => rfl
      | some ps => exact selectorsIn_direct (hb rfl)
    have hi {b : StyleBlock} (hs : keep unused (b.selectorsIn parents) ≠ []) :
        ∀ ps ∈ some (b.selectorsIn parents), keep unused ps ≠ [] := by
      rintro _ ⟨⟩
      exact hs
    cases r with
    | style b =>
      rw [isDirect,and_eq_true] at hd
      have hk := hk (b := b) fun h => by simpa [h] using hd.1
      refine occurrencesIn_removeFrom_block style (fun _ _ _ => rfl)
        (b.declarations.isEmpty && b.composes.isEmpty) ?_ id hk (keep_selectorsIn_eq_nil hp hk)
        (fun hs => ihr .style _ (hi hs) hr.2 hd.2)
        fun hn => occurrencesIn_unnestAll_of_keep_eq_nil hn hr.2 hd.2
      rw [removeUnused?_style,Bool.and_assoc]; rfl
    | nest b rules =>
      rw [isDirect,and_eq_true,and_eq_true] at hd
      obtain ⟨⟨hsl,hc⟩,hrl⟩ := hd
      have hk := hk (b := b) fun _ => hsl
      refine occurrencesIn_removeFrom_block nest (fun _ _ _ => rfl) b.declarations.isEmpty
        (removeUnused?_nest b rules) (fun hq => ?_) hk (keep_selectorsIn_eq_nil hp hk)
        (fun hs => ihr .style _ (hi hs) hr.2.2 hrl)
        fun hn => occurrencesIn_unnestAll_of_keep_eq_nil hn hr.2.2 hrl
      rw [hq,Bool.not_true,Bool.false_or] at hc
      rw [hq,hc]; rfl
    | group g rules =>
      rw [unnest,occurrencesIn_removeFrom_group,ihr scope.inside parents hp hr.2 hd,removeUnused?_group]
      cases h : isEmptied rules (removeFrom unused rules) with
      | true =>
        rw [isEmptied,and_eq_true,List.isEmpty_iff] at h
        rw [h.2]; rfl
      | false => exact (append_nil _).symm
    | statement =>
      rw [unnest,removeFrom_cons,removeUnused?_statement]
      split <;> rfl

end

/-- Whether nested rules that say something take the names of the enclosing rule with them. -/
def carries : Rule → Bool
  | style b rules | nest b rules =>
    anyCarries b.selectors && (!b.isQuiet || carriesAny rules)
  | group _ rules _ => carriesAny rules
  | statement .. => false
where
  carriesAny : List Rule → Bool
    | [] => false
    | r :: rs => r.carries || carriesAny rs

/-- Whether each style rule says something, or its names are taken by nested rules that do. -/
def isCarried : Rule → Bool
  | style b rules | nest b rules => (!b.isQuiet || carries.carriesAny rules) && allCarried rules
  | group _ rules _ => allCarried rules
  | statement .. => true
where
  allCarried : List Rule → Bool
    | [] => true
    | r :: rs => r.isCarried && allCarried rs

open isCarried

/-- The names of nested rules without nesting: their own names and those of the enclosing rule. -/
structure Unnested (parents : List Occurrence) (isCarried carries : Bool)
    (places flat : List Occurrence) : Prop where
  named : ∀ o ∈ places, o.isComposition = false
  mem : ∀ o ∈ flat, o ∈ places ∨ o ∈ parents
  own : isCarried = true → ∀ o ∈ places, o ∈ flat
  taken : carries = true → ∀ o ∈ parents, o ∈ flat

lemma Unnested.append {parents p f p' f' : List Occurrence} {c k c' k' : Bool}
    (h : Unnested parents c k p f) (h' : Unnested parents c' k' p' f') :
    Unnested parents (c && c') (k || k') (p ++ p') (f ++ f') where
  named o ho := (mem_append.mp ho).elim (h.named o) (h'.named o)
  mem o ho := by
    rcases mem_append.mp ho with ho | ho
    · exact (h.mem o ho).imp_left (mem_append_left p')
    · exact (h'.mem o ho).imp_left (mem_append_right p)
  own hc o ho := by
    rw [and_eq_true] at hc
    rcases mem_append.mp ho with ho | ho
    · exact mem_append_left f' (h.own hc.1 o ho)
    · exact mem_append_right f (h'.own hc.2 o ho)
  taken hk o ho := by
    rcases or_eq_true_iff.mp hk with hk | hk
    · exact mem_append_left f' (h.taken hk o ho)
    · exact mem_append_right f (h'.taken hk o ho)

section
variable {dashed : Bool}

lemma occurrencesIn_alone (b : StyleBlock) (selectors : List Selector) : occurrencesIn dashed (b.alone selectors) =
      bif b.isQuiet then [] else { b with selectors }.occurrences dashed := by
  unfold alone isQuiet
  cases b.declarations.isEmpty && b.composes.isEmpty with
  | true => rfl
  | false => simp [occurrencesIn,occurrences]

section
variable {b : StyleBlock} (hcomposes : b.composes = []) (o : Occurrence)
include hcomposes

lemma mem_occurrences_block : o ∈ b.occurrences dashed ↔ o ∈ Part.occurrences.occurrencesInAll b.selectors ∨
      o ∈ b.declarations.flatMap (Declaration.occurrences dashed) := by
  rw [StyleBlock.occurrences,StyleBlock.composition,hcomposes,mem_append,nil_append]

lemma not_isComposition_block (ho : o ∈ b.occurrences dashed) : o.isComposition = false := by
  rcases (mem_occurrences_block hcomposes o).mp ho with ho | ho
  · exact not_isComposition_selectors _ o ho
  · exact not_isComposition (Declaration.isDeclared_all _ o ho)

lemma mem_occurrences_alone (selectors : List Selector) : o ∈ occurrencesIn dashed (b.alone selectors) ↔
      b.isQuiet = false ∧ o ∈ occurrences.occurrencesInAll selectors ∨
        o ∈ b.declarations.flatMap (Declaration.occurrences dashed) := by
  rw [occurrencesIn_alone]
  cases hq : b.isQuiet with
  | true =>
    rw [isQuiet,and_eq_true,List.isEmpty_iff] at hq
    simp [hq.1]
  | false =>
    have hb : o ∈ ({ b with selectors } : StyleBlock).occurrences dashed ↔ _ :=
      mem_occurrences_block (b := { b with selectors }) hcomposes o
    simpa using hb

end

variable {b : StyleBlock} {rules : List Rule}

lemma Unnested.block {parents : List Selector} {c k : Bool} {p f : List Occurrence}
    (hcomposes : b.composes = []) (hp : parents ≠ []) (hsc : areScoped true b.selectors)
    (h : Unnested (occurrences.occurrencesInAll (b.selectorsIn (some parents))) c k p f) :
    Unnested (occurrences.occurrencesInAll parents) ((!b.isQuiet || k) && c)
      (anyCarries b.selectors && (!b.isQuiet || k)) (b.occurrences dashed ++ p)
      (occurrencesIn dashed (b.alone (b.selectorsIn (some parents))) ++ f) := by
  have hm := mem_occurrences_resolveAll hp (areScoped_iff.mp hsc).2
  -- The names in the selectors are left, if the rule says something or a nested rule takes them.
  have hs : (!b.isQuiet || k) → ∀ o ∈ occurrences.occurrencesInAll (b.selectorsIn (some parents)),
        o ∈ occurrencesIn dashed (b.alone (b.selectorsIn (some parents))) ++ f := by
    intro hlf o ho
    rcases or_eq_true_iff.mp hlf with hl | hk
    · rw [not_eq_true'] at hl
      exact mem_append_left f ((mem_occurrences_alone hcomposes o _).mpr (.inl ⟨hl,ho⟩))
    · exact mem_append_right _ (h.taken hk o ho)
  refine ⟨?_,?_,?_,?_⟩
  · intro o ho
    exact (mem_append.mp ho).elim (not_isComposition_block hcomposes o) (h.named o)
  · intro o ho
    have how : o ∈ occurrences.occurrencesInAll (b.selectorsIn (some parents)) →
        o ∈ b.occurrences dashed ++ p ∨ o ∈ occurrences.occurrencesInAll parents := by
      intro ho
      rcases (hm o).mp ho with ho | ⟨_,ho⟩
      · exact .inl (mem_append_left p ((mem_occurrences_block hcomposes o).mpr (.inl ho)))
      · exact .inr ho
    rcases mem_append.mp ho with ho | ho
    · rcases (mem_occurrences_alone hcomposes o _).mp ho with ⟨_,ho⟩ | ho
      · exact how ho
      · exact .inl (mem_append_left p ((mem_occurrences_block hcomposes o).mpr (.inr ho)))
    · rcases h.mem o ho with ho | ho
      · exact .inl (mem_append_right _ ho)
      · exact how ho
  · intro hc o ho
    rw [and_eq_true] at hc
    rcases mem_append.mp ho with ho | ho
    · rcases (mem_occurrences_block hcomposes o).mp ho with ho | ho
      · exact hs hc.1 o ((hm o).mpr (.inl ho))
      · exact mem_append_left f ((mem_occurrences_alone hcomposes o _).mpr (.inr ho))
    · exact mem_append_right _ (h.own hc.2 o ho)
  · intro hcr o ho
    rw [and_eq_true] at hcr
    exact hs hcr.2 o ((hm o).mpr (.inr ⟨hcr.1,ho⟩))

lemma composes_eq_nil {outer : List (List Selector)} {inner : List PlacedBlock}
    (h : ∀ p ∈ blocks.own outer b ++ inner, p.block.composes = []) : b.composes = [] := by
  by_contra hne
  have ho : blocks.own outer b = [⟨b,outer⟩] := by
    rw [blocks.own,if_neg]
    simp [hne]
  exact hne (h ⟨b,outer⟩ (mem_append_left inner (by rw [ho]; exact mem_cons_self)))

lemma unnested_rules (rules : List Rule) (outer : List (List Selector))
    {parents : List Selector} (hp : parents ≠ []) (hs : allScoped true rules)
    (hc : ∀ p ∈ blocksOf outer rules, p.block.composes = []) :
    Unnested (occurrences.occurrencesInAll parents) (allCarried rules)
      (carries.carriesAny rules) (occurrencesIn dashed rules)
      (occurrencesIn dashed (unnestAll (some parents) rules)) := by
  induction rules using induct generalizing outer parents with
  | nil =>
    exact ⟨forall_mem_nil _,forall_mem_nil _,fun _ => forall_mem_nil _,fun h => by cases h⟩
  | cons r rs ihr ih =>
    obtain ⟨hc,hcs⟩ := forall_mem_append.mp hc
    rw [allScoped,and_eq_true] at hs
    rw [unnestAll,occurrencesIn_append]
    refine .append ?_ (ih outer hp hs.2 hcs)
    replace hs := hs.1
    have hb {b : StyleBlock} (hb : areScoped true b.selectors) : b.selectorsIn (some parents) ≠ [] := fun h =>
      ((resolveAll_eq_nil_iff ..).mp h).elim hp (areScoped_iff.mp hb).1
    cases r with
    | style b =>
      rw [isScoped,and_eq_true] at hs
      rw [unnest,occurrencesIn_append]
      exact (ihr (b.selectors :: outer) (hb hs.1) hs.2 (forall_mem_append.mp hc).2).block (composes_eq_nil hc) hp hs.1
    | nest b =>
      rw [isScoped,and_eq_true,Bool.true_and] at hs
      rw [unnest,occurrencesIn_append]
      exact (ihr (b.selectors :: outer) (hb hs.1) hs.2 (forall_mem_append.mp hc).2).block (composes_eq_nil hc) hp hs.1
    | group =>
      rw [unnest,occurrencesIn,occurrencesIn,append_nil]
      exact ihr outer hp hs hc
    | statement s =>
      rw [unnest,occurrencesIn,occurrencesIn,append_nil]
      refine ⟨fun o ho => not_isComposition (s.isDeclared o ho),fun o ho => .inl ho,fun _ o ho => ho,fun h => by cases h⟩

lemma outer_ne_nil_of_mem_blocksOf {outer : List (List Selector)} (ho : outer ≠ []) :
    ∀ p ∈ blocksOf outer rules, p.outer ≠ [] := by
  induction rules using induct generalizing outer with
  | nil => exact forall_mem_nil _
  | cons r rs ihr ih =>
    refine forall_mem_append.mpr ⟨?_,ih ho⟩
    cases r with
    | style b | nest b =>
      exact forall_mem_append.mpr ⟨forall_mem_own ho,ihr (cons_ne_nil _ _)⟩
    | group => exact ihr ho
    | statement => exact forall_mem_nil _

lemma similar_alone {p f : List Occurrence} {k : Bool} (hl : (!b.isQuiet || k))
    (h : Unnested (occurrences.occurrencesInAll b.selectors) true k p f) :
    Similar (occurrencesIn dashed (b.alone b.selectors) ++ f) (b.occurrences dashed ++ p) := by
  have hf : ∀ o ∈ f, o.isComposition = false := fun o ho =>
    (h.mem o ho).elim (h.named o) (not_isComposition_selectors _ o)
  rw [occurrencesIn_alone]
  cases hq : b.isQuiet with
  | true =>
    -- Nothing is composed, and a nested rule takes the names of the rule.
    have hn := hq
    rw [isQuiet,and_eq_true,List.isEmpty_iff,List.isEmpty_iff] at hn
    rw [hq,Bool.not_true,Bool.false_or] at hl
    change Similar f (b.occurrences dashed ++ p)
    refine Similar.of_mem_iff hf ?_ ?_
    · intro o ho
      exact (mem_append.mp ho).elim (not_isComposition_block hn.2 o) (h.named o)
    · intro o
      rw [mem_append,mem_occurrences_block hn.2,hn.1]
      constructor
      · intro ho
        exact (h.mem o ho).symm.imp_left Or.inl
      · rintro ((ho | ho) | ho)
        · exact h.taken hl o ho
        · cases ho
        · exact h.own rfl o ho
  | false =>
    change Similar (b.occurrences dashed ++ f) (b.occurrences dashed ++ p)
    refine ⟨?_,?_⟩
    · intro o _
      rw [mem_append,mem_append]
      constructor
      · rintro (ho | ho)
        · exact .inl ho
        · refine (h.mem o ho).symm.imp_left fun ho => ?_
          exact mem_append_left _ (mem_append_right _ ho)
      · exact Or.imp_right (h.own rfl o)
    · have hnn : ∀ places : List Occurrence, (∀ o ∈ places, o.isComposition = false) →
          places.filter isComposition = [] := fun places hp =>
        filter_eq_nil_iff.mpr fun o ho => by simp [hp o ho]
      rw [filter_append,filter_append,hnn f hf,hnn p h.named]

lemma similar_unnestAll (rules : List Rule) (hs : allScoped false rules) (hc : allCarried rules)
    (hb : ∀ p ∈ blocksOf [] rules, p.outer ≠ [] → p.block.composes = []) :
    Similar (occurrencesIn dashed (unnestAll none rules)) (occurrencesIn dashed rules) := by
  induction rules using induct with
  | nil => exact .refl _
  | cons r rs ihr ih =>
    obtain ⟨hb,hbs⟩ := forall_mem_append.mp hb
    rw [allScoped,and_eq_true] at hs
    rw [allCarried,and_eq_true] at hc
    rw [unnestAll,occurrencesIn_append]
    refine .append ?_ (ih hs.2 hc.2 hbs)
    replace hs := hs.1
    cases r with
    | style b rules =>
      rw [isScoped,and_eq_true] at hs
      rw [isCarried,and_eq_true] at hc
      rw [unnest,occurrencesIn_append]
      apply similar_alone hc.1.1
      rw [← hc.1.2]
      exact unnested_rules rules [b.selectors] (areScoped_iff.mp hs.1).1 hs.2
        fun p hp => (forall_mem_append.mp hb).2 p hp (outer_ne_nil_of_mem_blocksOf (cons_ne_nil _ _) p hp)
    | nest => cases hs
    | group =>
      rw [unnest,occurrencesIn,occurrencesIn,append_nil]
      exact ihr hs hc.1 hb
    | statement => exact .append_nil _

lemma occurrencesIn_subset_of_mem_blocksOf (rules : List Rule)
    (outer : List (List Selector)) : ∀ p ∈ blocksOf outer rules,
      p.block.occurrences dashed ⊆ occurrencesIn dashed rules := by
  induction rules using induct generalizing outer with
  | nil => exact forall_mem_nil _
  | cons r rs ihr ih =>
    have hl {p q : List Occurrence} : ∀ {s : List Occurrence}, s ⊆ q → s ⊆ p ++ q :=
      fun h => List.Subset.trans h (subset_append_right _ _)
    refine forall_mem_append.mpr ⟨fun p hp => ?_,fun p hp => hl (ih outer p hp)⟩
    refine List.Subset.trans ?_ (subset_append_left _ _)
    cases r with
    | style b | nest b =>
      exact forall_mem_append.mpr ⟨forall_mem_own (subset_append_left _ _),fun p hp => hl (ihr _ p hp)⟩ p hp
    | group => exact ihr outer p hp
    | statement => cases hp

lemma misplaced_mem {p : PlacedBlock} (hp : p ∈ blocksOf [] rules)
    (hcomposes : p.block.composes ≠ []) (hs : p.block.selectors.mapM singleClass? = none) :
    ∃ first, .misplaced first ∈ occurrencesIn dashed rules := by
  obtain ⟨first,rest,hf⟩ := exists_cons_of_ne_nil hcomposes
  refine ⟨first,occurrencesIn_subset_of_mem_blocksOf rules [] p hp ?_⟩
  rw [StyleBlock.occurrences,StyleBlock.composition,hf]
  simp only [hs]
  exact mem_append_left _ mem_cons_self

lemma mapM_singleClass?_of_areScoped {sels : List Selector}
    (h : areScoped true sels) : sels.mapM singleClass? = none := by
  obtain ⟨hne,ha⟩ := areScoped_iff.mp h
  obtain ⟨s,rest,rfl⟩ := exists_cons_of_ne_nil hne
  have hn : s.singleClass? = none := by
    cases hs : s.singleClass? with
    | none => rfl
    | some name =>
      have hns := ha s mem_cons_self
      unfold singleClass? at hs
      split at hs
      · exact absurd hns false_ne_true
      · cases hs
  rw [mapM_cons,hn]; rfl

/-- The rules without nesting have the same names as the nested ones, or in both classes are composed
where that may not be. -/
lemma alike_unnestAll (hs : allScoped false rules) (hcr : allCarried rules)
    (hcm : ∀ p ∈ blocksOf [] rules, p.outer ≠ [] → p.block.composes ≠ [] → p.flat.block.selectors.mapM singleClass? = none) :
    Alike (occurrencesIn dashed (unnestAll none rules)) (occurrencesIn dashed rules) := by
  by_cases hn : ∀ p ∈ blocksOf [] rules, p.outer ≠ [] → p.block.composes = []
  · exact Alike.similar (similar_unnestAll rules hs hcr hn)
  · push Not at hn
    obtain ⟨p,hp,ho,hcomposes⟩ := hn
    apply Alike.misplaced
    · have hf : p.flat ∈ blocksOf [] (unnestAll none rules) := by
        rw [blocksOf_unnestAll hs]
        exact mem_map_of_mem hp
      exact misplaced_mem hf hcomposes (hcm p hp ho hcomposes)
    · have hc := chainScoped_blocksOf rules [] hs rfl p hp
      rw [chainScoped,and_eq_true,isEmpty_eq_false_iff.mpr ho] at hc
      exact misplaced_mem hp hcomposes (mapM_singleClass?_of_areScoped hc.1)

end
end Rule
end Css
