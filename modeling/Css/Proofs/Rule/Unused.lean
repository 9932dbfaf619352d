import Css.Proofs.Nesting.Names
import Css.Proofs.Rule.Contents

/-!
# Rules without unused names

Where nothing is unused, nothing is removed. New names bring back nothing to remove, if none of them is
unused. Else a rule goes that is unused, or that has nothing but rules and loses all of them.
-/
namespace Css
open List Rule.Holds Part.requiresAny Part.rename Checks

def Fresh (own : String → String) (unused : List String) (places : List Occurrence) : Prop :=
  ∀ o ∈ places, ∀ name, o.name? = some name → own name ∉ unused

lemma fresh_append {own : String → String} {unused : List String} {p q : List Occurrence} :
    Fresh own unused (p ++ q) ↔ Fresh own unused p ∧ Fresh own unused q := by
  simp only [Fresh,mem_append,or_imp,forall_and]

namespace Checks
variable (unused : List String)

def used : Checks where
  block _ b := b.selectors ≠ [] ∧ ∀ s ∈ b.selectors, s.requiresAny unused = false
  statement _ s := ∀ name ∈ s.keyframesName?, name ∉ unused

def fresh (r : Renaming) : Checks where
  block _ b := Fresh r.own unused (b.occurrences r.dashed)
  statement _ s := Fresh r.own unused (s.occurrences r.dashed)

end Checks

namespace Rule
variable {unused : List String} {c : Checks}

lemma keepSelectors_eq_self {b : StyleBlock}
    (h : ∀ s ∈ b.selectors, s.requiresAny unused = false) : keepSelectors unused b = b := by
  have ha : b.selectors.filter (fun s => !s.requiresAny unused) = b.selectors := by
    rw [filter_eq_self]
    intro s hs
    rw [h s hs]; rfl
  rw [keepSelectors,ha]

lemma isEmptied_self (rs : List Rule) : isEmptied rs rs = false := by cases rs <;> rfl

def IsUsed (unused : List String) : Rule → Prop
  | style b _ | nest b _ => b.selectors ≠ [] ∧ ∀ s ∈ b.selectors, s.requiresAny unused = false
  | group .. => True
  | statement s _ => ∀ name ∈ s.keyframesName?, name ∉ unused

lemma removeUnused?_eq_self {r : Rule} (h : r.IsUsed unused)
    (hc : removeUnused?.removeFrom unused r.children = r.children) : r.removeUnused? unused = some r := by
  cases r with
  | style =>
    rw [removeUnused?_style,keepSelectors_eq_self h.2,hc,isEmptied_self,isEmpty_eq_false_iff.mpr h.1]
    rfl
  | nest =>
    rw [removeUnused?_nest,keepSelectors_eq_self h.2,hc,isEmptied_self,isEmpty_eq_false_iff.mpr h.1]
    rfl
  | group =>
    rw [removeUnused?_group,hc,isEmptied_self]; rfl
  | statement =>
    rw [removeUnused?_statement,if_neg]
    rw [Option.any_eq_true]
    rintro ⟨name,hn,hc⟩
    exact h name hn (contains_iff_mem.mp hc)

lemma removeFrom_eq_self {rules : List Rule} {scope : Scope} (h : AllHold (used unused) scope rules) :
    removeUnused?.removeFrom unused rules = rules := by
  induction rules using induct generalizing scope with
  | nil => rfl
  | cons r rs hr ih =>
    obtain ⟨h,hs⟩ := h
    have hk : r.removeUnused? unused = some r := by
      cases r with
      | style | group => exact removeUnused?_eq_self h.1 (hr h.2)
      | nest => exact removeUnused?_eq_self h.2.1 (hr h.2.2)
      | statement => exact removeUnused?_eq_self h rfl
    rw [removeFrom_cons,hk,ih hs]; rfl

lemma leaves_used : Checks.Leaves unused c (used unused) where
  block _ _ _ hne := ⟨hne,fun _ hs => (Bool.not_eq_true' _).mp (mem_filter.mp hs).2⟩
  group _ _ _ := trivial
  statement _ _ _ hk := hk

variable {scope : Scope} {rules : List Rule}

lemma removeUnused_eq_self (h : AllHold ((used unused).when (unused ≠ [])) scope rules) :
    removeUnused unused rules = rules := by
  unfold removeUnused
  split
  · rfl
  · rename_i hne
    exact removeFrom_eq_self (allHold_of_when h fun hn => hne (isEmpty_iff.mpr hn))

lemma allHold_used_removeUnused (h : AllHold c scope rules) :
    AllHold ((used unused).when (unused ≠ [])) scope (removeUnused unused rules) := by
  unfold removeUnused
  split
  · rename_i hn
    exact allHold_when h fun hne => absurd (isEmpty_iff.mp hn) hne
  · have hu : AllHold (used unused) scope (removeUnused?.removeFrom unused rules) :=
      allHold_removeFrom leaves_used rules scope h
    exact allHold_when hu fun _ => hu

lemma allHold_fresh {r : Renaming} (rules : List Rule) (scope : Scope) (h : AllHold c scope rules)
    (hf : Fresh r.own unused (occurrences.occurrencesIn r.dashed rules)) :
    AllHold (fresh unused r) scope rules := by
  induction rules using induct generalizing scope with
  | nil => trivial
  | cons rule rules hr ih =>
    obtain ⟨h,hs⟩ := h
    obtain ⟨hf,hfs⟩ := fresh_append.mp hf
    refine ⟨?_,ih scope hs hfs⟩
    cases rule with
    | style =>
      obtain ⟨hb,hf⟩ := fresh_append.mp hf
      exact ⟨hb,hr .style h.2 hf⟩
    | nest =>
      obtain ⟨hb,hf⟩ := fresh_append.mp hf
      exact ⟨h.1,hb,hr .style h.2.2 hf⟩
    | group => exact ⟨trivial,hr scope.inside h.2 hf⟩
    | statement => exact hf

end Rule

namespace Part
variable {own : String → String} {unused : List String}

lemma requiresAny_rename : (∀ ps, Fresh own unused (occurrences.occurrencesIn ps) →
      selectorRequires unused (renameList own ps) = false) ∧
    ∀ ss, Fresh own unused (occurrences.occurrencesInAll ss) →
      ∀ s ∈ renameLists own ss, selectorRequires unused s = false := by
  refine induct (fun _ => rfl) ?_ (fun _ => forall_mem_nil _) ?_
  · intro p ps hi ih h
    obtain ⟨hp,hps⟩ := fresh_append.mp h
    rw [renameList,selectorRequires,ih hps,Bool.or_false]
    cases p with
    | className name | idName name =>
      have hn := hp _ mem_cons_self name rfl
      rw [rename,requiresAny,← Bool.not_eq_true,contains_iff_mem]
      exact hn
    | pseudoClassOf name ss =>
      cases ss with
      | nil => simp [rename,renameLists,requiresAny]
      | cons s ss =>
        rw [rename,renameLists,requiresAny,allRequire,hi hp _ mem_cons_self,Bool.false_and,Bool.and_false]
    | _ => rfl
  · intro s ss hs ih h
    obtain ⟨h,hss⟩ := fresh_append.mp h
    exact forall_mem_cons.mpr ⟨hs h,ih hss⟩

end Part

namespace Rule
variable {unused : List String}

lemma requiresAny_renameLists {own : String → String} {sels : List Selector}
    (h : Fresh own unused (Part.occurrences.occurrencesInAll sels)) :
    ∀ s ∈ renameLists own sels, Selector.requiresAny unused s = false := by
  intro s hs
  rw [← Part.selectorRequires_eq]
  exact Part.requiresAny_rename.2 sels h s hs

lemma turns_used_renameVisitor (r : Renaming) :
    (renameVisitor r).Turns ((used unused).both (fresh unused r)) (used unused) where
  block scope b h := by
    have hf := (fresh_append.mp (fresh_append.mp h.2).1).2
    refine ⟨fun hn => h.1.1 ?_,requiresAny_renameLists hf⟩
    change renameLists r.own b.selectors = [] at hn
    cases hs : b.selectors with
    | nil => rfl
    | cons s ss =>
      rw [hs] at hn; cases hn
  group _ _ _ _ := trivial
  statement scope s location h name hnm := by
    cases s with
    | keyframes pre quoted vendor frames =>
      cases quoted with
      | true => exact h.1 name hnm
      | false =>
        cases hnm
        exact h.2 (.definition pre) mem_cons_self pre rfl
    | _ => cases hnm

end Rule

lemma Part.selectorRequires_nil : (∀ ps, requiresAny.selectorRequires [] ps = false) ∧
    ∀ ss, ss ≠ [] → requiresAny.allRequire [] ss = false := by
  refine induct rfl ?_ (absurd rfl) ?_
  · intro p ps hi ih
    rw [requiresAny.selectorRequires,ih,Bool.or_false]
    cases p with
    | pseudoClassOf name ss =>
      cases ss with
      | nil => simp [requiresAny]
      | cons s ss => rw [requiresAny,hi (cons_ne_nil s ss),Bool.and_false]
    | _ => rfl
  · intro s ss hs _ _
    rw [requiresAny.allRequire,hs,Bool.false_and]

namespace Rule
open removeUnused?

/-- A rule that is among rules or inside of one of them. -/
inductive Within : List Rule → Rule → Prop
  | here {rs : List Rule} {r : Rule} (h : r ∈ rs) : Within rs r
  | inside {rs : List Rule} {r r' : Rule} (h : r ∈ rs) (hr : Within r.children r') : Within rs r'

def HasSelectors : Rule → Prop
  | style b _ | nest b _ => b.selectors ≠ []
  | _ => True

variable (unused : List String)

def IsUnused : Rule → Prop
  | style b _ | nest b _ => ∀ s ∈ b.selectors, s.requiresAny unused = true
  | group .. => False
  | statement s _ => ∃ name ∈ s.keyframesName?, name ∈ unused

def isBare : Rule → Bool
  | style b _ => b.declarations.isEmpty && b.composes.isEmpty
  | nest b _ => b.declarations.isEmpty
  | group .. => true
  | statement .. => false

/-- The rules differ at most in the rules inside of them and in selectors that the second has no more. -/
def Narrows : Rule → Rule → Prop
  | style b _, style b' _ | nest b _, nest b' _ => b'.selectors <+ b.selectors ∧ b' = { b with selectors := b'.selectors }
  | group g _ loc, group g' _ loc' => g' = g ∧ loc' = loc
  | statement s loc, r => r = statement s loc
  | _, _ => False

/-- What is left of rules. A group without rules is never left out. -/
inductive Trimmed : List Rule → List Rule → Prop
  | nil : Trimmed [] []
  | unused {r : Rule} {rs left : List Rule} (h : r.IsUnused unused) (hs : Trimmed rs left) : Trimmed (r :: rs) left
  | emptied {r : Rule} {rs left : List Rule} (h : r.isBare = true) (hne : r.children ≠ [])
      (hc : Trimmed r.children []) (hs : Trimmed rs left) : Trimmed (r :: rs) left
  | kept {r r' : Rule} {rs left : List Rule} (h : Narrows r r') (hu : r'.IsUsed unused)
      (hc : Trimmed r.children r'.children)
      (hb : r.isBare = true → r.children ≠ [] → r'.children ≠ []) (hs : Trimmed rs left) :
      Trimmed (r :: rs) (r' :: left)

variable {unused} {rules : List Rule}

lemma Trimmed.of_cond (gone : Bool) {r : Rule} (r' : Rule) {rs left : List Rule}
    (hc : Trimmed unused r.children r'.children) (hs : Trimmed unused rs left)
    (hg : gone = true → r.IsUnused unused) (hk : gone = false → Narrows r r' ∧ r'.IsUsed unused) :
    Trimmed unused (r :: rs)
      ((bif gone || (isEmptied r.children r'.children && r.isBare) then none else some r').toList ++ left) := by
  cases gone with
  | true => exact .unused (hg rfl) hs
  | false =>
    cases he : isEmptied r.children r'.children && r.isBare with
    | true =>
      simp only [isEmptied,Bool.and_eq_true,Bool.not_eq_true',isEmpty_eq_false_iff,List.isEmpty_iff] at he
      exact .emptied he.2 he.1.1 (he.1.2 ▸ hc) hs
    | false =>
      refine .kept (hk rfl).1 (hk rfl).2 hc (fun hb hne hn => ?_) hs
      simp [isEmptied,hb,hne,hn] at he

lemma isUnused_of_keepSelectors {b : StyleBlock} (h : (keepSelectors unused b).selectors.isEmpty) :
    ∀ s ∈ b.selectors, s.requiresAny unused = true := by
  simpa [keepSelectors,filter_eq_nil_iff] using h

lemma isUsed_keepSelectors {b : StyleBlock} (h : (keepSelectors unused b).selectors.isEmpty = false) :
    ((keepSelectors unused b).selectors <+ b.selectors ∧
      keepSelectors unused b = { b with selectors := (keepSelectors unused b).selectors }) ∧
      (keepSelectors unused b).selectors ≠ [] ∧
      ∀ s ∈ (keepSelectors unused b).selectors, s.requiresAny unused = false := by
  refine ⟨⟨filter_sublist,rfl⟩,isEmpty_eq_false_iff.mp h,fun s hs => ?_⟩
  simpa using (mem_filter.mp hs).2

lemma trimmed_removeFrom (rules : List Rule) : Trimmed unused rules (removeFrom unused rules) := by
  induction rules using induct with
  | nil => exact .nil
  | cons r rs hr ih =>
    rw [removeFrom_cons]
    cases r with
    | style b rs =>
      rw [removeUnused?_style,Bool.and_assoc]
      exact .of_cond _ (style _ _) hr ih isUnused_of_keepSelectors isUsed_keepSelectors
    | nest b rs =>
      rw [removeUnused?_nest]
      exact .of_cond _ (nest _ _) hr ih isUnused_of_keepSelectors isUsed_keepSelectors
    | group g rs loc =>
      rw [removeUnused?_group,← Bool.false_or (isEmptied ..),← Bool.and_true (isEmptied ..)]
      exact .of_cond false (group _ _ _) hr ih Bool.noConfusion fun _ => ⟨⟨rfl,rfl⟩,trivial⟩
    | statement s loc =>
      rw [removeUnused?_statement]
      by_cases hk : s.keyframesName?.any unused.contains
      · rw [if_pos hk]
        simp only [Option.any_eq_true,contains_iff_mem] at hk
        exact .unused hk ih
      · rw [if_neg hk]
        simp only [Option.any_eq_true,contains_iff_mem,not_exists,not_and] at hk
        exact .kept rfl hk hr Bool.noConfusion ih

lemma Trimmed.exists_of_mem {left : List Rule} {r' : Rule} (h : Trimmed unused rules left) (hr : r' ∈ left) :
    ∃ r : Rule, r'.IsUsed unused ∧ Trimmed unused r.children r'.children := by
  induction h with
  | nil => cases hr
  | unused _ _ ih | emptied _ _ _ _ _ ih => exact ih hr
  | kept _ hu hc _ _ _ ih =>
    rcases mem_cons.mp hr with rfl | hr
    · exact ⟨_,hu,hc⟩
    · exact ih hr

lemma Trimmed.isUsed {left : List Rule} {r : Rule} (h : Trimmed unused rules left) (hr : Within left r) :
    r.IsUsed unused := by
  induction hr generalizing rules with
  | here hm =>
    obtain ⟨_,hu,-⟩ := h.exists_of_mem hm
    exact hu
  | inside hm _ ih =>
    obtain ⟨_,-,hc⟩ := h.exists_of_mem hm
    exact ih hc

lemma Within.tail {r r' : Rule} {rs : List Rule} (h : Within rs r') : Within (r :: rs) r' := by
  cases h with
  | here h => exact .here (mem_cons_of_mem r h)
  | inside h hr => exact .inside (mem_cons_of_mem r h) hr

lemma removeFrom_of_isUsed (h : ∀ r, Within rules r → r.IsUsed unused) : removeFrom unused rules = rules := by
  induction rules using induct with
  | nil => rfl
  | cons r rs hr ih =>
    have hc := hr fun r' hw => h r' (.inside mem_cons_self hw)
    rw [removeFrom_cons,removeUnused?_eq_self (h r (.here mem_cons_self)) hc,ih fun r' hw => h r' hw.tail]
    rfl

lemma isUsed_nil {r : Rule} (h : r.HasSelectors) : r.IsUsed [] := by
  have hs (s : Selector) : s.requiresAny [] = false := by
    rw [← Part.selectorRequires_eq,Part.selectorRequires_nil.1]
  cases r with
  | style | nest => exact ⟨h,fun s _ => hs s⟩
  | group => trivial
  | statement => exact fun _ _ => not_mem_nil

/-- Elimination is complete and stable: the rules that are left are the given ones, trimmed; none of them,
at any depth, asks for an unused name; and nothing is left to remove. -/
theorem trimmed_removeUnused (unused : List String) (rules : List Rule)
    (h : ∀ r, Within rules r → r.HasSelectors) :
    Trimmed unused rules (removeUnused unused rules) ∧
      (∀ r, Within (removeUnused unused rules) r → r.IsUsed unused) ∧
      removeUnused unused (removeUnused unused rules) = removeUnused unused rules := by
  have he : removeUnused unused rules = removeFrom unused rules := by
    rw [removeUnused]
    split
    · rename_i hn
      rw [List.isEmpty_iff.mp hn,removeFrom_of_isUsed fun r hr => isUsed_nil (h r hr)]
    · rfl
  have ht : Trimmed unused rules _ := trimmed_removeFrom rules
  have hu (r : Rule) (hr : Within (removeFrom unused rules) r) : r.IsUsed unused := ht.isUsed hr
  rw [he]
  refine ⟨ht,hu,?_⟩
  rw [removeUnused,removeFrom_of_isUsed hu,ite_self]

/-- A layer keeps an empty layer in it when it loses its only style rule. -/
theorem trimmed_removeUnused_layer :
    let a := style ⟨[[.className "a"]],[],[],⟨0,0⟩⟩ []
    let layer := fun rs => group (.layer none) rs ⟨0,0⟩
    removeUnused ["a"] [layer [a,layer []]] = [layer [layer []]] ∧
      Trimmed ["a"] [layer [a,layer []]] (removeUnused ["a"] [layer [a,layer []]]) := by
  intro a layer
  refine ⟨rfl,(trimmed_removeUnused ["a"] [layer [a,layer []]] fun r hr => ?_).1⟩
  rcases hr with h | ⟨h,hr⟩ <;> cases mem_singleton.mp h
  · trivial
  rcases hr with h | ⟨h,hr⟩ <;> rcases mem_cons.mp h with rfl | h
  · exact cons_ne_nil _ _
  · cases mem_singleton.mp h; trivial
  · cases hr with | here h | inside h => cases h
  · cases mem_singleton.mp h; cases hr with | here h | inside h => cases h

end Rule
end Css
