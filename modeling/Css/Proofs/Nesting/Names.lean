import Css.Proofs.Modules.Renaming
import Css.Proofs.Nesting.Flatten
import Mathlib.Tactic.Tauto

/-!
# Names in flattened selectors

A nested selector, with a selector in the place of the references to the enclosing rule, has its own
names and those of that selector.
-/
namespace Css
open List Part.carries Part.occurrences Part.resolve Part.requiresAny Selector Css.Part
namespace Part

lemma anyCarries_iff {sels : List Selector} : anyCarries sels ↔ ∃ s ∈ sels, listCarries s := by
  induction sels with
  | nil => simp [anyCarries]
  | cons s ss ih => simp [anyCarries,ih]

lemma mem_occurrencesInAll {sels : List Selector} {o : Occurrence} :
    o ∈ occurrencesInAll sels ↔ ∃ s ∈ sels, o ∈ occurrencesIn s := by
  induction sels with
  | nil => simp [occurrencesInAll]
  | cons s ss ih => simp [occurrencesInAll,ih]

lemma occurrencesIn_append (ps qs : List Part) : occurrencesIn (ps ++ qs) = occurrencesIn ps ++ occurrencesIn qs := by
  induction ps with
  | nil => rfl
  | cons p ps ih =>
    rw [cons_append,occurrencesIn,occurrencesIn,ih,append_assoc]

lemma occurrencesIn_splice (parent : Selector) (pre : Option Part) :
    occurrencesIn (parent.splice pre) = occurrencesIn parent := by
  have ha : occurrencesIn [pseudoClassOf "is" [parent]] = occurrencesIn parent := by
    simp [occurrencesIn,occurrences,occurrencesInAll]
  unfold splice
  split
  · rfl
  · split
    · rfl
    · exact ha

section
variable (parent : Selector) (o : Occurrence)

lemma mem_occurrences_resolve : (∀ ps pre, o ∈ occurrencesIn (resolveList parent pre ps) ↔
      o ∈ occurrencesIn ps ∨ listCarries ps ∧ o ∈ occurrencesIn parent) ∧
    ∀ ss, o ∈ occurrencesInAll (resolveInner parent ss) ↔ o ∈ occurrencesInAll ss ∨
        anyCarries ss ∧ o ∈ occurrencesIn parent := by
  refine induct ?_ ?_ ?_ ?_
  · simp [resolveList,occurrencesIn,listCarries]
  · intro p ps hi ih pre
    have h : o ∈ occurrencesIn (p.resolve parent pre) ↔ o ∈ p.occurrences ∨ p.carries ∧ o ∈ occurrencesIn parent := by
      cases p with
      | nesting =>
        rw [resolve,occurrencesIn_splice]
        simp [occurrences,carries]
      | pseudoClassOf =>
        rw [resolve,occurrencesIn,occurrencesIn,append_nil]
        exact hi
      | _ => simp [resolve,occurrencesIn,carries]
    rw [resolveList,occurrencesIn_append,mem_append,h,ih,occurrencesIn,mem_append,listCarries,Bool.or_eq_true]
    tauto
  · simp [resolveInner,occurrencesInAll,anyCarries]
  · intro s ss hs ih
    have h : o ∈ occurrencesIn (if hasNesting s then resolveList parent none s else s) ↔
        o ∈ occurrencesIn s ∨ listCarries s ∧ o ∈ occurrencesIn parent := by
      split
      · exact hs none
      · rename_i hn
        simp [keeps_carries_of_not_hasNesting ((Bool.not_eq_true _).mp hn)]
    rw [resolveInner,occurrencesInAll,mem_append,h,ih,occurrencesInAll,mem_append,anyCarries,Bool.or_eq_true]
    tauto

end

section
variable {unused : List String} {parent : Selector}

lemma selectorRequires_eq (s : List Part) : selectorRequires unused s = Selector.requiresAny unused s := by
  unfold Selector.requiresAny
  induction s with
  | nil => rfl
  | cons p s ih => rw [selectorRequires,ih,any_cons]

lemma requiresAny_splice (pre : Option Part) :
    Selector.requiresAny unused (parent.splice pre) = parent.requiresAny unused := by
  have ha : Selector.requiresAny unused [pseudoClassOf "is" [parent]] = parent.requiresAny unused := by
    have his : isMatchingName "is" := by decide
    simp [Selector.requiresAny,requiresAny,allRequire,his,selectorRequires_eq]
  unfold Selector.splice
  split
  · rfl
  · split
    · rfl
    · exact ha

lemma isEmpty_resolveInner (ss : List (List Part)) : (resolveInner parent ss).isEmpty = ss.isEmpty := by
  cases ss <;> rfl

lemma requiresAny_resolve (hp : parent.requiresAny unused = false) :
    (∀ ps pre, Selector.requiresAny unused (resolveList parent pre ps) = Selector.requiresAny unused ps) ∧
    ∀ ss, allRequire unused (resolveInner parent ss) = allRequire unused ss := by
  refine induct (fun _ => rfl) ?_ rfl ?_
  · intro p ps hi ih pre
    rw [resolveList,Selector.requiresAny,any_append,Selector.requiresAny,any_cons]
    refine congrArg₂ _ ?_ (ih (some p))
    change Selector.requiresAny unused (p.resolve parent pre) = _
    cases p with
    | nesting =>
      rw [resolve,requiresAny_splice,hp]; rfl
    | pseudoClassOf =>
      simp only [resolve,Selector.requiresAny,any_cons,any_nil,Bool.or_false,requiresAny]
      rw [isEmpty_resolveInner,hi]
    | _ => simp [resolve,Selector.requiresAny,requiresAny]
  · intro s ss hs ih
    have h : Selector.requiresAny unused (if Selector.hasNesting s then resolveList parent none s else s) =
        Selector.requiresAny unused s := by
      split
      · exact hs none
      · rfl
    rw [resolveInner,allRequire,allRequire,selectorRequires_eq,selectorRequires_eq,h,ih]

lemma requiresAny_resolveList_of_parent (hpr : parent.requiresAny unused)
    {ps : List Part} (hn : ps.any isNesting) (pre : Option Part) :
    Selector.requiresAny unused (resolveList parent pre ps) := by
  induction ps generalizing pre with
  | nil => cases hn
  | cons p ps ih =>
    rw [resolveList,Selector.requiresAny,any_append,Bool.or_eq_true]
    rcases Bool.or_eq_true_iff.mp hn with hp | hps
    · cases p with
      | nesting => exact .inl ((requiresAny_splice pre).trans hpr)
      | _ => cases hp
    · exact .inr (ih hps (some p))

end
end Part

namespace Selector

lemma hasNesting_of_any_isNesting {s : Selector} (h : s.any isNesting) : s.hasNesting := by
  obtain ⟨p,hp,hn⟩ := any_eq_true.mp h
  refine any_eq_true.mpr ⟨p,hp,?_⟩
  cases p with
  | nesting => rfl
  | _ => cases hn

lemma filter_addNew (f : Selector → Bool) (sels more : List Selector) :
    (addNew sels more).filter f = addNew (sels.filter f) (more.filter f) := by
  induction more generalizing sels with
  | nil => rfl
  | cons s more ih =>
    rw [addNew,ih]
    cases hs : f s with
    | false =>
      rw [filter_cons_of_neg (by simp [hs])]
      split
      · rfl
      · rw [filter_append,filter_cons_of_neg (by simp [hs]),filter_nil,append_nil]
    | true =>
      rw [filter_cons_of_pos hs,addNew]
      congr 1
      simp only [contains_iff_mem,mem_filter,hs,and_true]
      split
      · rfl
      · rw [filter_append,filter_cons_of_pos hs,filter_nil]

def keep (unused : List String) (selectors : List Selector) : List Selector :=
  selectors.filter fun s => !s.requiresAny unused

section
variable {unused : List String} {children : List Selector}

lemma keep_map_resolve (h : ∀ c ∈ children, c.any isNesting) (parent : Selector) :
    keep unused (children.map (resolve parent)) =
      bif parent.requiresAny unused then [] else (keep unused children).map (resolve parent) := by
  have hr : ∀ c ∈ children, resolve parent c = resolveList parent none c := by
    intro c hc
    rw [resolve,if_pos (hasNesting_of_any_isNesting (h c hc))]
  cases hp : parent.requiresAny unused with
  | true =>
    rw [keep,filter_eq_nil_iff.mpr]
    · rfl
    · intro s hs
      obtain ⟨c,hc,rfl⟩ := mem_map.mp hs
      rw [hr c hc,requiresAny_resolveList_of_parent hp (h c hc)]
      exact Bool.false_ne_true
  | false =>
    rw [keep,filter_map,cond_false,keep]
    congr 1
    apply filter_congr
    intro c hc
    rw [Function.comp_apply,hr c hc,(requiresAny_resolve hp).1]

/-- A nested selector that refers to the enclosing rule by itself, and not only in an argument,
selects something where both do. -/
lemma keep_resolveAll (h : ∀ c ∈ children, c.any isNesting) (qs : List Selector) :
    keep unused (resolveAll qs children) = resolveAll (keep unused qs) (keep unused children) := by
  have ha : keep unused (qs.flatMap fun parent => children.map (resolve parent)) =
      (keep unused qs).flatMap fun parent => (keep unused children).map (resolve parent) := by
    induction qs with
    | nil => rfl
    | cons parent qs ih =>
      rw [flatMap_cons,keep,filter_append]
      change keep unused _ ++ keep unused _ = _
      rw [ih,keep_map_resolve h parent,keep.eq_1 unused (parent :: qs)]
      cases hp : parent.requiresAny unused with
      | true =>
        rw [filter_cons_of_neg (by simp [hp])]; rfl
      | false =>
        rw [filter_cons_of_pos (by simp [hp])]; rfl
  rw [resolveAll,keep,filter_addNew]
  exact congrArg (addNew []) ha

end

lemma resolveAll_eq_nil_iff (qs cs : List Selector) : resolveAll qs cs = [] ↔ qs = [] ∨ cs = [] := by
  simp only [eq_nil_iff_forall_not_mem,mem_resolveAll]
  constructor
  · intro h
    by_contra hne
    push Not at hne
    obtain ⟨⟨parent,hp⟩,child,hc⟩ := hne
    exact h _ ⟨parent,hp,child,hc,rfl⟩
  · rintro (h | h) s ⟨parent,hp,child,hc,rfl⟩
    · exact h parent hp
    · exact h child hc

lemma mem_occurrences_resolveAll {parents cs : List Selector} (hpr : parents ≠ [])
    (hn : ∀ c ∈ cs, c.hasNesting) (o : Occurrence) :
    o ∈ occurrencesInAll (resolveAll parents cs) ↔ o ∈ occurrencesInAll cs ∨ anyCarries cs ∧
          o ∈ occurrencesInAll parents := by
  have hr : ∀ parent, ∀ c ∈ cs, (o ∈ occurrencesIn (resolve parent c) ↔ o ∈ occurrencesIn c ∨
          listCarries c ∧ o ∈ occurrencesIn parent) := by
    intro parent c hc
    rw [resolve,if_pos (hn c hc)]
    exact (mem_occurrences_resolve parent o).1 c none
  simp only [mem_occurrencesInAll,anyCarries_iff,mem_resolveAll]
  constructor
  · rintro ⟨_,⟨parent,hp,c,hc,rfl⟩,ho⟩
    rcases (hr parent c hc).mp ho with ho | ⟨hcr,ho⟩
    · exact .inl ⟨c,hc,ho⟩
    · exact .inr ⟨⟨c,hc,hcr⟩,parent,hp,ho⟩
  · rintro (⟨c,hc,ho⟩ | ⟨⟨c,hc,hcr⟩,parent,hp,ho⟩)
    · obtain ⟨parent,hp⟩ := exists_mem_of_ne_nil _ hpr
      exact ⟨_,⟨parent,hp,c,hc,rfl⟩,(hr parent c hc).mpr (.inl ho)⟩
    · exact ⟨_,⟨parent,hp,c,hc,rfl⟩,(hr parent c hc).mpr (.inr ⟨hcr,ho⟩)⟩

end Selector
end Css
