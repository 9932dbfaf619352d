import Css.Proofs.Nesting.Enclosing
import Css.Proofs.Nesting.Names
import Css.Proofs.Rule.Keyframes
import Css.Proofs.Selector.Leading

/-!
# What is left of nesting in flattened rules

Flattened rules have no rules in style rules. A reference to an enclosing rule is left only where it
belongs to no file, and a combinator at the front of a selector only where it stood before a reference.
-/
namespace Css
open Rule.Holds Rule.unnest Part.anywhere Part.rename Selector Css.Part Checks StyleBlock Feature
namespace Checks

def flat : Checks where
  block sc b := sc ≠ .style ∧ b.isQuiet = false
  group sc _ := sc ≠ .style
  statement sc _ := sc ≠ .style

def nested (targets : Targets) : Checks := scoped.both (flat.when (Feature.nesting.isCompatible targets = false))

def replaceable : Checks where
  block _ b := ∀ s ∈ b.selectors, s.keepsReference = false

instance (sc : Scope) (b : StyleBlock) : Decidable (replaceable.block sc b) :=
  inferInstanceAs (Decidable (∀ s ∈ b.selectors, s.keepsReference = false))

instance (sc : Scope) (g : Group) : Decidable (replaceable.group sc g) := isTrue trivial

instance (sc : Scope) (s : Statement) : Decidable (replaceable.statement sc s) := isTrue trivial

lemma survives_nested (tgts : Targets) (unused : List String) : (nested tgts).Survives unused :=
  (survives_scoped unused).both (Survives.when fun _ _ h _ => h)

lemma copied_nested (tgts : Targets) : (nested tgts).Copied :=
  Copied.both (fun _ _ _ _ _ => trivial) (Copied.when fun _ _ _ _ h => h)

end Checks

namespace Rule

/-- `c` asks enough of rules inside of a rule with selectors of which `Q` holds, that there is what
`c'` asks once they have been flattened. -/
structure Unnests (c c' : Checks) (Q : List Selector → Prop) : Prop where
  selectors : ∀ sc parents b, parents.isSome = (sc == .style) → (∀ ps ∈ parents, Q ps) →
    c.block sc b → Q (b.selectorsIn parents)
  block : ∀ sc scope' parents b, scope' ≠ .style → Q (b.selectorsIn parents) →
    c.block sc b → b.isQuiet = false →
      c'.block scope' { b with selectors := b.selectorsIn parents }
  group : ∀ sc scope' g, scope' ≠ .style → c.group sc g → c'.group scope' g
  statement : ∀ sc scope' s, scope' ≠ .style → c.statement sc s → c'.statement scope' s

section
variable {c c' : Checks} {Q : List Selector → Prop} {sc : Scope} {parents : Option (List Selector)}

lemma allHold_alone (hc : Unnests c c' Q) {scope' : Scope} {b : StyleBlock}
    (hs' : scope' ≠ .style) (hQ : Q (b.selectorsIn parents)) (hb : c.block sc b) :
    AllHold c' scope' (b.alone (b.selectorsIn parents)) := by
  unfold alone
  cases hq : b.declarations.isEmpty && b.composes.isEmpty with
  | true => trivial
  | false => exact ⟨⟨hc.block sc scope' parents b hs' hQ hb hq,trivial⟩,trivial⟩

lemma inside_ne_style (h : sc ≠ .style) : sc.inside ≠ .style := by
  cases sc with
  | top => exact nofun
  | group => exact nofun
  | style => exact absurd rfl h

lemma allHold_unnestAll (hc : Unnests c c' Q) (rules : List Rule) {scope' : Scope}
    (hp : parents.isSome = (sc == .style)) (hQ : ∀ ps ∈ parents, Q ps) (hs' : scope' ≠ .style)
    (h : AllHold c sc rules) :
    AllHold c' scope' (unnestAll parents rules) := by
  induction rules using induct generalizing sc scope' parents with
  | nil => trivial
  | cons r rs hr ih =>
    obtain ⟨h,hrs⟩ := h
    refine allHold_append.mpr ⟨?_,ih hp hQ hs' hrs⟩
    cases r with
    | style b =>
      have hsl := hc.selectors sc parents b hp hQ h.1
      exact allHold_append.mpr ⟨allHold_alone hc hs' hsl h.1,hr rfl (fun ps hps => Option.some.inj hps ▸ hsl) hs' h.2⟩
    | nest b =>
      have hsl := hc.selectors sc parents b hp hQ h.2.1
      exact allHold_append.mpr ⟨allHold_alone hc hs' hsl h.2.1,
        hr rfl (fun ps hps => Option.some.inj hps ▸ hsl) hs' h.2.2⟩
    | group g =>
      refine ⟨⟨hc.group sc scope' g hs' h.1,?_⟩,trivial⟩
      rw [← inside_beq_style] at hp
      exact hr hp hQ (inside_ne_style hs') h.2
    | statement s => exact ⟨hc.statement sc scope' s hs' h,trivial⟩

lemma unnests_uniform (hc : c.Uniform) : Unnests c c fun _ => True where
  selectors _ _ _ _ _ _ := trivial
  block sc scope' _ b _ _ h _ := hc.block sc scope' b _ h
  group sc scope' g _ h := hc.group sc scope' g h
  statement sc scope' s _ h := hc.statement sc scope' s h

lemma areScoped_selectorsIn {b : StyleBlock} (hp : parents.isSome = (sc == .style))
    (hQ : ∀ ps ∈ parents, areScoped false ps) (hsc : scoped.block sc b)
    (hr : replaceable.block sc b) :
    areScoped false (b.selectorsIn parents) := by
  cases parents with
  | none =>
    change areScoped (sc == .style) b.selectors = true at hsc
    rw [← hp] at hsc
    exact hsc
  | some ps =>
    obtain ⟨hne,hnn⟩ := areScoped_iff.mp (hQ ps rfl)
    refine areScoped_iff.mpr ⟨fun hn => ?_,fun s hs => ?_⟩
    · rcases (resolveAll_eq_nil_iff ps b.selectors).mp hn with hn | hn
      · exact hne hn
      · exact (areScoped_iff.mp hsc).1 hn
    · obtain ⟨parent,hpr,child,hc,rfl⟩ := mem_resolveAll.mp hs
      exact hasNesting_resolve (hnn parent hpr) (hr child hc)

lemma unnests_flat : Unnests (scoped.both replaceable) (scoped.both flat)
      fun selectors => areScoped false selectors = true where
  selectors sc parents b hp hQ h := areScoped_selectorsIn hp hQ h.1 h.2
  block sc scope' parents b hs' hQ h hq := by
    refine ⟨?_,hs',hq⟩
    change areScoped (scope' == .style) (b.selectorsIn parents) = true
    rw [beq_eq_false_iff_ne.mpr hs']
    exact hQ
  group _ _ _ hs' _ := ⟨trivial,hs'⟩
  statement _ _ _ hs' _ := ⟨trivial,hs'⟩

end

lemma eq_nil_of_flat {rules : List Rule} (h : AllHold flat .style rules) : rules = [] := by
  cases rules with
  | nil => rfl
  | cons r rs =>
    cases r with
    | style b inner => exact absurd rfl h.1.1.1
    | nest b inner => exact absurd rfl h.1.2.1.1
    | group g inner location => exact absurd rfl h.1.1
    | statement s location => exact absurd rfl h.1

lemma unnestAll_eq_self (rules : List Rule) {sc : Scope} (h : AllHold flat sc rules) : unnestAll none rules = rules := by
  induction rules using induct generalizing sc with
  | nil => rfl
  | cons r rs hr ih =>
    obtain ⟨h,hrs⟩ := h
    rw [unnestAll,ih hrs]
    cases r with
    | style b =>
      have hq : (b.declarations.isEmpty && b.composes.isEmpty) = false := h.1.2
      rw [eq_nil_of_flat h.2,unnest,alone,hq]; rfl
    | nest => exact absurd h.1 h.2.1.1
    | group =>
      rw [unnest,hr h.2]; rfl
    | statement => rfl

lemma turns_nested_of_keeps {v : Visitor Id} {f : List Declaration → List Declaration} (hv : v.Keeps f) (tgts : Targets) :
    v.Turns (Checks.nested tgts) (Checks.nested tgts) := by
  have hs : v.Turns Checks.scoped Checks.scoped := by
    refine ⟨fun sc b h => ?_,fun _ _ _ h => h,fun _ _ _ h => h⟩
    rw [hv.block]
    exact h
  refine hs.both (Visitor.Turns.when ⟨fun sc b h => ?_,fun _ _ _ h => h,fun _ _ _ h => h⟩)
  refine ⟨h.1,?_⟩
  rw [hv.block,isQuiet,hv.isEmpty]
  exact h.2

end Rule

namespace Part
variable (own : String → String)

lemma anywhere_rename : (∀ ps, anywhereIn isNesting (renameList own ps) = anywhereIn isNesting ps) ∧
    ∀ ss, anywhereInAny isNesting (renameLists own ss) = anywhereInAny isNesting ss := by
  refine induct rfl ?_ rfl fun s ss hs ih => congrArg₂ or hs ih
  intro p ps hi ih
  refine congrArg₂ or ?_ ih
  cases p with
  | pseudoClassOf => exact congrArg (false || ·) hi
  | _ => rfl

lemma renameLists_eq_map (sels : List Selector) : renameLists own sels = sels.map (renameList own) := by
  induction sels with
  | nil => rfl
  | cons s ss ih => rw [renameLists,ih,List.map_cons]

end Part

namespace Rule

lemma areScoped_rename (r : Renaming) {inStyle : Bool} {sels : List Selector} (h : areScoped inStyle sels) :
    areScoped inStyle (renameLists r.own sels) := by
  have hs : ∀ s : Selector, hasNesting (renameList r.own s) = s.hasNesting := by
    intro s
    have hin := (anywhere_rename r.own).1 s
    rw [anywhereIn_eq_any,anywhereIn_eq_any] at hin
    exact hin
  rw [renameLists_eq_map]
  simpa [areScoped,hs,Function.comp_def] using h

lemma turns_nested_renameVisitor (r : Renaming) (tgts : Targets) :
    (renameVisitor r).Turns (Checks.nested tgts) (Checks.nested tgts) := by
  have hs : (renameVisitor r).Turns Checks.scoped Checks.scoped :=
    ⟨fun _ _ h => areScoped_rename r h,fun _ _ _ h => h,fun _ _ _ h => h⟩
  refine hs.both (Visitor.Turns.when ⟨fun sc b h => ?_,fun _ _ _ h => h,fun _ _ _ h => h⟩)
  refine ⟨h.1,?_⟩
  change ((b.declarations.map (Declaration.rename r)).isEmpty && b.composes.isEmpty) = false
  rw [List.isEmpty_map]
  exact h.2

variable {targets : Targets} {rules : List Rule}

lemma forNesting_eq_self (h : AllHold (nested targets) .top rules) : forNesting targets rules = rules := by
  unfold forNesting
  cases hn : nesting.isCompatible targets with
  | true => rfl
  | false => exact unnestAll_eq_self rules (allHold_of_when (allHold_both.mp h).2 hn)

lemma allHold_forNesting (hs : AllHold Checks.scoped .top rules)
    (hr : nesting.isCompatible targets = false → AllHold Checks.replaceable .top rules) :
    AllHold (Checks.nested targets) .top (forNesting targets rules) := by
  unfold forNesting
  cases hn : nesting.isCompatible targets with
  | true =>
    refine allHold_both.mpr ⟨hs,allHold_when hs fun hnt => ?_⟩
    rw [hn] at hnt; cases hnt
  | false =>
    have hf : AllHold (Checks.scoped.both Checks.flat) .top (unnestAll none rules) :=
      allHold_unnestAll unnests_flat rules rfl nofun nofun (allHold_both.mpr ⟨hs,hr hn⟩)
    obtain ⟨hs,hf⟩ := allHold_both.mp hf
    exact allHold_both.mpr ⟨hs,allHold_when hs fun _ => hf⟩

lemma allHold_forNesting_of_uniform {c : Checks} (hc : c.Uniform)
    (h : AllHold c .top rules) : AllHold c .top (forNesting targets rules) := by
  unfold forNesting
  split
  · exact h
  · exact allHold_unnestAll (unnests_uniform hc) rules rfl nofun nofun h

end Rule
end Css

namespace Css
open List Part.carries Part.resolve Rule.blocks Bool Selector Css.Part Checks
namespace Part

lemma listCarries_append (ps qs : List Part) : listCarries (ps ++ qs) = (listCarries ps || listCarries qs) := by
  induction ps with
  | nil => rfl
  | cons p ps ih =>
    rw [cons_append,listCarries,listCarries,ih,Bool.or_assoc]

section
variable (parent : Selector)

lemma listCarries_splice (pre : Option Part) : listCarries (parent.splice pre) = listCarries parent := by
  unfold splice
  split
  · rfl
  · split
    · rfl
    · simp [listCarries,carries,anyCarries]

lemma carries_resolve : (∀ ps pre, listCarries (resolveList parent pre ps) = (listCarries ps && listCarries parent)) ∧
    ∀ ss, anyCarries (resolveInner parent ss) = (anyCarries ss && listCarries parent) := by
  refine induct (fun _ => rfl) ?_ rfl ?_
  · intro p ps hi ih pre
    have h : listCarries (p.resolve parent pre) = (p.carries && listCarries parent) := by
      cases p with
      | nesting => exact listCarries_splice parent pre
      | pseudoClassOf => exact (Bool.or_false _).trans hi
      | _ => rfl
    rw [resolveList,listCarries_append,h,ih,listCarries,Bool.and_or_distrib_right]
  · intro s ss hs ih
    have h : listCarries (if hasNesting s then resolveList parent none s else s) =
          (listCarries s && listCarries parent) := by
      cases hn : hasNesting s with
      | true => exact hs none
      | false =>
        rw [if_neg Bool.false_ne_true,(keeps_carries_of_not_hasNesting hn).2]; rfl
    rw [resolveInner,anyCarries,h,ih,anyCarries,Bool.and_or_distrib_right]

end
end Part

namespace Selector

def carries (s : Selector) : Bool := listCarries s

def startsWithReference (s : Selector) : Bool := s.head?.any Part.isNesting

section
variable {parent child : Selector} (hchild : child.hasNesting = true)
include hchild

lemma hasNesting_resolve_eq : (resolve parent child).hasNesting =
      (child.keepsReference || (child.carries && parent.hasNesting)) := by
  rw [resolve,if_pos hchild,← anywhereIn_eq_hasNesting]
  exact (anywhere_resolve parent).1 child none

lemma carries_resolve : (resolve parent child).carries = (child.carries && parent.carries) := by
  rw [resolve,if_pos hchild]
  exact (Part.carries_resolve parent).1 child none

lemma resolve_ne_nil (hp : parent ≠ []) : resolve parent child ≠ [] := by
  rw [resolve,if_pos hchild]
  cases child with
  | nil => cases hchild
  | cons p ps =>
    cases p with
    | nesting => exact append_ne_nil_of_left_ne_nil hp _
    | _ => exact cons_ne_nil _ _

lemma isRelative_resolve (hp : parent ≠ []) : (resolve parent child).isRelative =
      (child.isRelative || (child.startsWithReference && parent.isRelative)) := by
  rw [resolve,if_pos hchild]
  cases child with
  | nil => rfl
  | cons p ps =>
    cases p with
    | nesting =>
      change (List.head? (parent ++ _)).any isCombinator = parent.isRelative
      rw [head?_append_of_ne_nil _ hp]; rfl
    | _ => rfl

end

/-- Whether a reference is left in a rule with these selectors, inside of rules with the selectors
`outer`: one that is not replaced, here or in what it is replaced by. -/
def leavesReference (sels : List Selector) : List (List Selector) → Bool
  | [] => false
  | enclosing :: outer =>
    sels.any keepsReference || (sels.any carries && leavesReference enclosing outer)

/-- Whether a combinator is left at the front of a selector of such a rule: its own, or one that comes
with what stands for the reference at the front. -/
def leavesCombinator (sels : List Selector) : List (List Selector) → Bool
  | [] => false
  | enclosing :: outer =>
    sels.any isRelative || (sels.any startsWithReference && leavesCombinator enclosing outer)

def IsRooted : List (List Selector) → Prop
  | [] => True
  | [sels] => ∀ s ∈ sels, s.opens = true
  | _ :: enclosing :: outer => IsRooted (enclosing :: outer)

section
variable {sels : List Selector} {outer : List (List Selector)}

lemma flat_ne_nil (h : chainScoped (sels :: outer)) : flat sels outer ≠ [] := by
  induction outer generalizing sels with
  | nil =>
    rw [chainScoped,and_eq_true] at h
    exact (areScoped_iff.mp h.1).1
  | cons enclosing outer ih =>
    rw [chainScoped,and_eq_true] at h
    intro hn
    rcases (resolveAll_eq_nil_iff _ _).mp hn with hp | hs
    · exact ih h.2 hp
    · exact (areScoped_iff.mp h.1).1 hs

/-- What a resolved selector has of its own or gets from the selector of the enclosing rule, one of
them has if a selector has it of its own, or gets it from one that has it. -/
lemma any_resolveAll {qs : List Selector} (hpr : qs ≠ []) {has own gets : Selector → Bool}
    (h : ∀ parent ∈ qs, ∀ child ∈ sels, has (resolve parent child) = (own child || (gets child && has parent))) :
    (resolveAll qs sels).any has = (sels.any own || (sels.any gets && qs.any has)) := by
  obtain ⟨first,hf⟩ := exists_mem_of_ne_nil qs hpr
  rw [Bool.eq_iff_iff]
  simp only [any_eq_true,mem_resolveAll,Bool.or_eq_true,Bool.and_eq_true]
  constructor
  · rintro ⟨_,⟨parent,hp,child,hchild,rfl⟩,hh⟩
    rw [h parent hp child hchild,Bool.or_eq_true,Bool.and_eq_true] at hh
    rcases hh with ho | ⟨hg,hh⟩
    · exact .inl ⟨child,hchild,ho⟩
    · exact .inr ⟨⟨child,hchild,hg⟩,parent,hp,hh⟩
  · rintro (⟨child,hchild,ho⟩ | ⟨⟨child,hchild,hg⟩,parent,hp,hh⟩)
    · refine ⟨_,⟨first,hf,child,hchild,rfl⟩,?_⟩
      rw [h first hf child hchild,ho]; rfl
    · refine ⟨_,⟨parent,hp,child,hchild,rfl⟩,?_⟩
      rw [h parent hp child hchild,hg,hh]
      exact Bool.or_true _

lemma any_hasNesting_flat (h : chainScoped (sels :: outer)) :
    (flat sels outer).any hasNesting = leavesReference sels outer := by
  induction outer generalizing sels with
  | nil =>
    rw [chainScoped,and_eq_true] at h
    rw [flat,leavesReference,any_eq_false]
    intro s hs
    rw [(areScoped_iff.mp h.1).2 s hs]
    exact false_ne_true
  | cons enclosing outer ih =>
    rw [chainScoped,and_eq_true] at h
    rw [flat,leavesReference,← ih h.2]
    refine any_resolveAll (flat_ne_nil h.2) fun parent _ child hchild => ?_
    exact hasNesting_resolve_eq ((areScoped_iff.mp h.1).2 child hchild)

lemma not_carries_flat (h : chainScoped (sels :: outer)) : ∀ s ∈ flat sels outer, s.carries = false := by
  induction outer generalizing sels with
  | nil =>
    rw [chainScoped,and_eq_true] at h
    intro s hs
    have hn := (areScoped_iff.mp h.1).2 s hs
    rw [← anywhereIn_eq_hasNesting,anywhere_nesting.1] at hn
    exact (or_eq_false_iff.mp hn).2
  | cons enclosing outer ih =>
    rw [chainScoped,and_eq_true] at h
    intro s hs
    obtain ⟨parent,hp,child,hchild,rfl⟩ := mem_resolveAll.mp hs
    rw [carries_resolve ((areScoped_iff.mp h.1).2 child hchild),ih h.2 parent hp]
    exact and_false _

lemma ne_nil_of_mem_flat (h : chainScoped (sels :: outer))
    (hr : IsRooted (sels :: outer)) : ∀ s ∈ flat sels outer, s ≠ [] := by
  induction outer generalizing sels with
  | nil =>
    rintro s hs rfl
    cases hr [] hs
  | cons enclosing outer ih =>
    rw [chainScoped,and_eq_true] at h
    intro s hs
    obtain ⟨parent,hp,child,hchild,rfl⟩ := mem_resolveAll.mp hs
    exact resolve_ne_nil ((areScoped_iff.mp h.1).2 child hchild) (ih h.2 hr parent hp)

lemma any_isRelative_flat (h : chainScoped (sels :: outer)) (hr : IsRooted (sels :: outer)) :
    (flat sels outer).any isRelative = leavesCombinator sels outer := by
  induction outer generalizing sels with
  | nil =>
    rw [flat,leavesCombinator,any_eq_false]
    intro s hs
    rw [isRelative_of_opens (hr s hs)]
    exact false_ne_true
  | cons enclosing outer ih =>
    rw [chainScoped,and_eq_true] at h
    rw [flat,leavesCombinator,← ih h.2 hr]
    refine any_resolveAll (flat_ne_nil h.2) fun parent hp child hchild => ?_
    exact isRelative_resolve ((areScoped_iff.mp h.1).2 child hchild) (ne_nil_of_mem_flat h.2 hr parent hp)

end
end Selector

namespace Rule
variable {rules : List Rule} {r : Rule}

lemma blocks_subset_of_mem {outer : List (List Selector)} (hr : r ∈ rules) : r.blocks outer ⊆ blocksOf outer rules := by
  induction rules with
  | nil => cases hr
  | cons r' rs ih =>
    intro b hb
    rcases mem_cons.mp hr with rfl | hr
    · exact mem_append_left _ hb
    · exact mem_append_right _ (ih hr hb)

lemma blocks_subset_of_occurs {inStyle : Bool} (hr : Occurs rules inStyle r)
    (ho : inStyle = false) : r.blocks [] ⊆ blocksOf [] rules := by
  induction hr with
  | top hm => exact blocks_subset_of_mem hm
  | inStyle => cases ho
  | inNest => cases ho
  | inGroup _ hm ih => exact List.Subset.trans (blocks_subset_of_mem hm) (ih ho)

section

lemma isRooted_cons {scope : Scope} {b : StyleBlock} {outer : List (List Selector)}
    (hs : (scope == .style) = !outer.isEmpty) (ho : Selector.IsRooted outer)
    (hb : opening.block scope b) : Selector.IsRooted (b.selectors :: outer) := by
  cases outer with
  | nil => exact hb (beq_eq_false_iff_ne.mp hs)
  | cons enclosing outer => exact ho

lemma isRooted_blocksOf (rules : List Rule) {scope : Scope}
    (outer : List (List Selector)) (hs : (scope == .style) = !outer.isEmpty)
    (ho : Selector.IsRooted outer) (h : Holds.AllHold opening scope rules) :
    ∀ p ∈ blocksOf outer rules, Selector.IsRooted (p.block.selectors :: p.outer) := by
  induction rules using induct generalizing scope outer with
  | nil => exact forall_mem_nil _
  | cons r rs hr ih =>
    obtain ⟨h,hrs⟩ := h
    refine forall_mem_append.mpr ⟨?_,ih outer hs ho hrs⟩
    cases r with
    | style b =>
      have hb := isRooted_cons hs ho h.1
      exact forall_mem_append.mpr ⟨forall_mem_own hb,hr (b.selectors :: outer) rfl hb h.2⟩
    | nest b =>
      have hb := isRooted_cons hs ho h.2.1
      exact forall_mem_append.mpr ⟨forall_mem_own hb,hr (b.selectors :: outer) rfl hb h.2.2⟩
    | group => exact hr outer ((inside_beq_style scope).trans hs) ho h.2
    | statement => exact forall_mem_nil _

end

lemma unnests_parsed : Unnests parsed flat fun _ => True where
  selectors _ _ _ _ _ _ := trivial
  block _ _ _ _ hs' _ _ hq := ⟨hs',hq⟩
  group _ _ _ hs' _ := hs'
  statement _ _ _ hs' _ := hs'

lemma flat_of_occurs (h : Holds.AllHold flat .top rules) {inStyle : Bool} (hr : Occurs rules inStyle r) :
    inStyle = false ∧ r.isNest = false ∧ ∀ b nested, r = .style b nested → nested = [] ∧ ⟨b,[]⟩ ∈ blocksOf [] rules := by
  obtain ⟨scope,hs,hh⟩ := holds_of_occurs h hr
  have ho : scope ≠ .style := by
    cases r with
    | style b rules => exact hh.1.1
    | nest b rules => exact hh.2.1.1
    | group g rules loc => exact hh.1
    | statement s loc => exact hh
  have hin : inStyle = false := hs.symm.trans (beq_eq_false_iff_ne.mpr ho)
  refine ⟨hin,?_,?_⟩
  · cases r with
    | nest b rules => exact absurd hh.1 ho
    | style | group | statement => rfl
  · rintro b nested rfl
    refine ⟨eq_nil_of_flat hh.2,blocks_subset_of_occurs hr hin ?_⟩
    have hq : (b.declarations.isEmpty && b.composes.isEmpty) = false := hh.1.2
    rw [blocks,blocks.own,hq]
    exact mem_cons_self

end Rule

/-- The rules of a source can be flattened. Then there are no rules in style rules, and none names an
enclosing rule explicitly. A rule keeps a reference to an enclosing one only in a selector that
belongs to no file, and a combinator at the front of a selector only if it has one before a reference,
or if one of the rules around it hands it on. -/
theorem Rule.flattenList_leaves {source : String} {options : ParseOptions} {sheet : StyleSheet}
    (h : StyleSheet.parse source options = .ok sheet) :
    ∃ flattened, Rule.flattenList sheet.rules = .ok flattened ∧
      (∀ inStyle r, Rule.Occurs flattened inStyle r → inStyle = false ∧ r.isNest = false ∧
        ∀ b nested, r = .style b nested →
          nested = [] ∧ ⟨b, []⟩ ∈ Rule.blocks.blocksOf [] flattened) ∧
      List.Forall₂
        (fun b b' : PlacedBlock => (∀ s ∈ b'.block.selectors, s.carries = false) ∧
            b'.block.selectors.any Selector.hasNesting =
              Selector.leavesReference b.block.selectors b.outer ∧
            b'.block.selectors.any Selector.isRelative =
              Selector.leavesCombinator b.block.selectors b.outer)
        (Rule.blocks.blocksOf [] sheet.rules) (Rule.blocks.blocksOf [] flattened) := by
  have hscoped := StyleSheet.allScoped_rules h
  have hflat : Rule.Holds.AllHold Checks.flat .top (Rule.unnest.unnestAll none sheet.rules) :=
    Rule.allHold_unnestAll Rule.unnests_parsed sheet.rules rfl nofun nofun
      (StyleSheet.allHold_rules h)
  refine ⟨_, Rule.flattenAll_eq_unnestAll sheet.rules none hscoped, ?_, ?_⟩
  · intro inStyle r hr
    exact Rule.flat_of_occurs hflat hr
  · rw [Rule.blocksOf_unnestAll hscoped, forall₂_map_right_iff, forall₂_same]
    intro b hb
    have hchain := Rule.chainScoped_blocksOf sheet.rules [] hscoped rfl b hb
    have hroot := Rule.isRooted_blocksOf sheet.rules [] rfl trivial
      (StyleSheet.allHold_opening h) b hb
    exact ⟨Selector.not_carries_flat hchain, Selector.any_hasNesting_flat hchain,
      Selector.any_isRelative_flat hchain hroot⟩

/-- Of `.a,.e>.f{&>.c{x:y}@nest .d &{x:y;:is(&,.g) .h{x:y}}}` no reference and no combinator at the
front is left in the three flattened rules. -/
theorem Rule.flattenList_leaves_explicit : ∃ sheet flattened,
      StyleSheet.parse
          ".a,.e>.f\x7b&>.c\x7bx:y\x7d@nest .d &\x7bx:y;:is(&,.g) .h\x7bx:y\x7d\x7d\x7d"
          { modules := some {} } = .ok sheet ∧
        Rule.flattenList sheet.rules = .ok flattened ∧
          (Rule.blocks.blocksOf [] sheet.rules).length = 3 ∧ List.Forall₂
              (fun _ b' : PlacedBlock => b'.block.selectors.any Selector.hasNesting = false ∧
                  b'.block.selectors.any Selector.isRelative = false)
              (Rule.blocks.blocksOf [] sheet.rules) (Rule.blocks.blocksOf [] flattened) := by
  obtain ⟨sheet, hparse, hcheck⟩ := Rule.ok_of_any
    (x := StyleSheet.parse
      ".a,.e>.f\x7b&>.c\x7bx:y\x7d@nest .d &\x7bx:y;:is(&,.g) .h\x7bx:y\x7d\x7d\x7d"
      { modules := some {} })
    (p := fun sheet => (Rule.blocks.blocksOf [] sheet.rules).length == 3 &&
        (Rule.blocks.blocksOf [] sheet.rules).all fun b =>
          !Selector.leavesReference b.block.selectors b.outer &&
            !Selector.leavesCombinator b.block.selectors b.outer)
    (by decide +kernel)
  simp only [Bool.and_eq_true, beq_iff_eq, all_eq_true, Bool.not_eq_true'] at hcheck
  obtain ⟨flattened, hflat, _, hpairs⟩ := Rule.flattenList_leaves hparse
  refine ⟨sheet, flattened, hparse, hflat, hcheck.1, ?_⟩
  have hmem := (forall₂_and_left _ _).mpr ⟨hcheck.2, hpairs⟩
  refine hmem.imp ?_
  rintro b b' ⟨hnone, _, hreference, hcombinator⟩
  exact ⟨hreference.trans hnone.1, hcombinator.trans hnone.2⟩

/-- Of `.a{:global .b &{x:y}> &{x:y}}` one flattened rule keeps a reference, and one starts with a
combinator. -/
theorem Rule.flattenList_leaves_both : ∃ sheet flattened,
      StyleSheet.parse ".a\x7b:global .b &\x7bx:y\x7d> &\x7bx:y\x7d\x7d"
          { modules := some {} } = .ok sheet ∧
        Rule.flattenList sheet.rules = .ok flattened ∧
          (Rule.blocks.blocksOf [] flattened).map (fun b =>
              (b.block.selectors.any Selector.hasNesting,
                b.block.selectors.any Selector.isRelative)) =
            [(true, false), (false, true)] := by
  obtain ⟨sheet, hparse, hcheck⟩ := Rule.ok_of_any
    (x := StyleSheet.parse ".a\x7b:global .b &\x7bx:y\x7d> &\x7bx:y\x7d\x7d" { modules := some {} })
    (p := fun sheet => (Rule.flattenList sheet.rules).toOption.any fun flattened =>
      (Rule.blocks.blocksOf [] flattened).map (fun b => (b.block.selectors.any Selector.hasNesting,
            b.block.selectors.any Selector.isRelative)) ==
        [(true, false), (false, true)])
    (by decide +kernel)
  obtain ⟨flattened, hflat, hleft⟩ := Rule.ok_of_any hcheck
  exact ⟨sheet, flattened, hparse, hflat, beq_iff_eq.mp hleft⟩

end Css
