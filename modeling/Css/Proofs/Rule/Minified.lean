import Css.Proofs.Cascade.Compact
import Css.Proofs.Rule.Traversal
import Css.Sheet.Basic
import Mathlib.Data.List.Chain

/-!
# Minified rules

Minification leaves minified rules as they are, but for a style rule that has lost all rules inside it: only the
next minification can merge it with its neighbours.
-/
namespace Css
open List Bool

namespace Declaration

lemma isEmpty_dropOverridden (ds : List Declaration) : (dropOverridden ds).isEmpty = ds.isEmpty := by
  induction ds with
  | nil => rfl
  | cons d ds ih =>
    rw [dropOverridden]
    split
    · rename_i ho
      cases ds with
      | nil => cases ho
      | cons => exact ih
    · rfl

lemma isEmpty_collapseSides (box : String) (ds : List Declaration) : (collapseSides box ds).isEmpty = ds.isEmpty := by
  unfold collapseSides
  split
  · rename_i last hl
    dsimp only
    split
    · have hne : ds ≠ [] := by rintro rfl; cases hl
      rw [isEmpty_eq_false_iff.mpr hne]
      simp
    · rfl
  · rfl

lemma isEmpty_minify (ds : List Declaration) : (minify ds).isEmpty = ds.isEmpty := by
  rw [minify,isEmpty_map,isEmpty_dropOverridden,isEmpty_collapseSides,isEmpty_collapseSides,isEmpty_dropOverridden]

end Declaration

lemma StyleBlock.declarations_merge? {a b m : StyleBlock} (h : merge? a b = some m) :
    m.declarations = Declaration.minify (a.declarations ++ b.declarations) ∨ m.declarations = a.declarations := by
  unfold merge? at h
  split at h
  · split at h
    · cases h
      exact .inl rfl
    · split at h
      · cases h
        exact .inr rfl
      · cases h
  · cases h

namespace Rule

/-- Whether every style rule that is not dropped keeps a rule inside it, if it has any. -/
def keepsInner : Rule → Bool
  | style _ rules => (rules.isEmpty || !isVoid.allVoid rules) && allKeep rules
  | nest _ rules | group _ rules _ => allKeep rules
  | statement .. => true
where
  allKeep : List Rule → Bool
    | [] => true
    | r :: rs => (r.isVoid || r.keepsInner) && allKeep rs

open keepsInner isVoid compactList

/-- Behind the candidate `p`, the candidate `c` is not merged. -/
def StaysBehind (c p : Candidate) : Prop := ∀ before, pushMerged c (p :: before) = c :: p :: before

variable {c : Candidate} {cs ps : List Candidate} {rs : List Rule}

lemma isEmpty_mergeAll (cs : List Candidate) : (mergeAll cs).isEmpty = cs.isEmpty := by
  cases cs with
  | nil => rfl
  | cons c cs => apply mergeAll_induction (motive := fun rs => rs.isEmpty = false) <;> simp

lemma isEmpty_candidates (rs : List Rule) : (candidates rs).isEmpty = allVoid rs := by
  induction rs with
  | nil => rfl
  | cons r rs ih =>
    rw [candidates,allVoid]
    cases r.isVoid with
    | true => exact ih
    | false => rfl

structure IsKept (r : Rule) : Prop where
  kept : r.isVoid = false
  inner : r.keepsInner

lemma allVoid_of_kept (h : ∀ r ∈ rs, IsKept r) : allVoid rs = rs.isEmpty := by
  cases rs with
  | nil => rfl
  | cons r rs => rw [allVoid,(h r mem_cons_self).kept]; rfl

lemma allKeep_of_kept (h : ∀ r ∈ rs, IsKept r) : allKeep rs := by
  induction rs with
  | nil => rfl
  | cons r rs ih =>
    obtain ⟨hr,hrs⟩ := forall_mem_cons.mp h
    rw [allKeep,hr.inner,ih hrs,Bool.or_true]; rfl

lemma isKept_mergeAll (h : ∀ c ∈ cs, IsKept c.rule) : ∀ r ∈ mergeAll cs, IsKept r := by
  apply mergeAll_induction (motive := fun rs => ∀ r ∈ rs, IsKept r)
  · intro pre a b m post hm h
    simp only [forall_mem_append,forall_mem_cons] at h ⊢
    obtain ⟨hpre,ha,-,hpost⟩ := h
    refine ⟨hpre,⟨?_,rfl⟩,hpost⟩
    have ha := ha.kept
    rw [isVoid,allVoid,Bool.and_true] at ha ⊢
    rcases StyleBlock.declarations_merge? hm with hd | hd
    · rw [hd,Declaration.isEmpty_minify,isEmpty_eq_false_iff]
      exact append_ne_nil_of_left_ne_nil (isEmpty_eq_false_iff.mp ha) _
    · rw [hd,ha]
  · exact forall_mem_map.mpr h

/-- Minified rules are kept, and so are those inside them. -/
lemma isKept_candidates (rs : List Rule) : ∀ c ∈ candidates rs, IsKept c.rule := by
  induction rs using induct with
  | nil => exact forall_mem_nil _
  | cons r rs hr ih =>
    rw [candidates]
    split
    · exact ih
    · rename_i hv
      refine forall_mem_cons.mpr ⟨?_,ih⟩
      rw [not_eq_true] at hv
      have hm := isKept_mergeAll hr
      have hk := allKeep_of_kept hm
      have hi := allVoid_of_kept hm
      have ha := hi.trans ((isEmpty_mergeAll _).trans (isEmpty_candidates _))
      cases r with
      | style b rules =>
        refine ⟨(congrArg₂ and (Declaration.isEmpty_minify b.declarations) ha).trans hv,?_⟩
        rw [candidate,keepsInner,← hi,Bool.or_not_self]
        exact hk
      | nest b rules => exact ⟨(congrArg (_ && ·) ha).trans hv,hk⟩
      | group g rules loc => exact ⟨ha.trans hv,hk⟩
      | statement => exact ⟨rfl,rfl⟩

lemma candidates_map_rule (hk : ∀ c ∈ cs, IsKept c.rule) (h : ∀ c ∈ cs, candidate c.rule = c) :
    candidates (cs.map Candidate.rule) = cs := by
  induction cs with
  | nil => rfl
  | cons c cs ih =>
    obtain ⟨hc,hcs⟩ := forall_mem_cons.mp hk
    obtain ⟨hs,hss⟩ := forall_mem_cons.mp h
    rw [map_cons,candidates,hc.kept,hs,ih hcs hss]; rfl

/-- What is pushed is merged until the rules on top cannot be merged any more. -/
lemma pushMerged_settled (hc : candidate c.rule = c) (hp : ∀ p ∈ ps, candidate p.rule = p)
    (h : ps.IsChain StaysBehind) : (∀ p ∈ pushMerged c ps, candidate p.rule = p) ∧
      (pushMerged c ps).IsChain StaysBehind := by
  fun_induction pushMerged c ps with
  | case1 c => exact ⟨forall_mem_singleton.mpr hc,.singleton c⟩
  | case2 ps a b m hm ih =>
    obtain ⟨ha,hp⟩ := forall_mem_cons.mp hp
    refine ih ?_ hp h.tail
    have hd : Declaration.minify m.declarations = m.declarations := by
      rcases StyleBlock.declarations_merge? hm with hd | hd
      · rw [hd,Declaration.minify_of_isMinified (Declaration.isMinified_minify _)]
      · rw [hd]
        injection ha with ha
        injection ha with ha
        exact congrArg StyleBlock.declarations ha
    rw [candidate,StyleBlock.minify,hd]; rfl
  | case3 ps a b hm =>
    refine ⟨forall_mem_cons.mpr ⟨hc,hp⟩,isChain_cons_cons.mpr ⟨fun before => ?_,h⟩⟩
    rw [pushMerged,hm]
  | case4 c p ps hn =>
    refine ⟨forall_mem_cons.mpr ⟨hc,hp⟩,isChain_cons_cons.mpr ⟨fun before => ?_,h⟩⟩
    exact pushMerged.eq_3 c p before hn

lemma foldl_pushMerged_settled (hc : ∀ c ∈ cs, candidate c.rule = c) (hp : ∀ p ∈ ps, candidate p.rule = p)
    (h : ps.IsChain StaysBehind) : let done := cs.foldl (fun done c => pushMerged c done) ps
    (∀ p ∈ done, candidate p.rule = p) ∧ done.IsChain StaysBehind := by
  induction cs generalizing ps with
  | nil => exact ⟨hp,h⟩
  | cons c cs ih =>
    obtain ⟨hc,hcs⟩ := forall_mem_cons.mp hc
    obtain ⟨hp,h⟩ := pushMerged_settled hc hp h
    exact ih hcs hp h

lemma foldr_pushMerged (h : ps.IsChain StaysBehind) : ps.foldr pushMerged [] = ps := by
  induction ps with
  | nil => rfl
  | cons c ps ih =>
    rw [foldr_cons,ih h.tail]
    cases ps with
    | nil => rfl
    | cons p ps => exact (isChain_cons_cons.mp h).1 ps

lemma compactList_mergeAll (hk : ∀ c ∈ cs, IsKept c.rule) (h : ∀ c ∈ cs, candidate c.rule = c) :
    compactList (mergeAll cs) = mergeAll cs := by
  obtain ⟨hp,hc⟩ := foldl_pushMerged_settled h (forall_mem_nil _) .nil
  have hs : candidates (mergeAll cs) = _ :=
    candidates_map_rule (forall_mem_map.mp (isKept_mergeAll hk)) fun c hm => hp c (mem_reverse.mp hm)
  rw [compactList,hs,mergeAll,foldl_reverse]
  exact congrArg (fun done => map Candidate.rule (reverse done)) (foldr_pushMerged hc)

lemma candidate_of_allKeep (h : allKeep rs) : ∀ c ∈ candidates rs, candidate c.rule = c := by
  induction rs using induct with
  | nil => exact forall_mem_nil _
  | cons r rs hr ih =>
    rw [allKeep,and_eq_true,or_eq_true] at h
    rw [candidates]
    split
    · exact ih h.2
    · rename_i hv
      refine forall_mem_cons.mpr ⟨?_,ih h.2⟩
      have hk := h.1.resolve_left hv
      have hc (hk : allKeep r.children) : compactList (compactList r.children) = compactList r.children :=
        compactList_mergeAll (isKept_candidates _) (hr hk)
      cases r with
      | style b rules =>
        rw [keepsInner,and_eq_true] at hk
        have hm : b.minify.minify = b.minify := by
          rw [StyleBlock.minify,StyleBlock.minify,Declaration.minify_of_isMinified (Declaration.isMinified_minify _)]
        have he : (mergeAll (candidates rules)).isEmpty = rules.isEmpty := by
          rw [isEmpty_mergeAll,isEmpty_candidates]
          cases rules with
          | nil => rfl
          | cons => exact (not_eq_true' _).mp hk.1
        rw [candidate,candidate,hm,he]
        exact congrArg (fun rs => Candidate.mk (style b.minify rs) _) (hc hk.2)
      | nest b rules => exact congrArg (fun rs => Candidate.mk (nest b rs) false) (hc hk)
      | group g rules loc => exact congrArg (fun rs => Candidate.mk (group g rs loc) false) (hc hk)
      | statement => rfl

lemma compactList_compactList (h : allKeep rs) : compactList (compactList rs) = compactList rs :=
  compactList_mergeAll (isKept_candidates rs) (candidate_of_allKeep h)

lemma isKept_compactList (rs : List Rule) : ∀ r ∈ compactList rs, IsKept r :=
  isKept_mergeAll (isKept_candidates rs)

end Rule

namespace StyleSheet
open Rule

def minified (sheet : StyleSheet) : StyleSheet := { sheet with rules := compactList sheet.rules }

lemma print_congr {sheet : StyleSheet} {rules : List Rule} {options : PrintOptions} (hm : options.minify = true)
    (h : compactList rules = compactList sheet.rules) :
    { sheet with rules }.print options = sheet.print options := by
  simp only [print,printed,hm,if_true,h]

end StyleSheet
end Css
