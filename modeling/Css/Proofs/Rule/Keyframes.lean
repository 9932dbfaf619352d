import Css.Proofs.Nesting.Flatten
import Css.Proofs.Rule.Contents

/-!
# Keyframes and their prefixed copies

A prefixed copy of keyframes is added, if there is none of the same name among the rules that they stand
with.
-/
namespace Css
open List Rule.visit Rule.prefixKeyframes Rule.Holds Rule.unnest Checks

structure KeyframesHead where
  name : String
  quoted : Bool
  vendor : Option Vendor
deriving DecidableEq

def Statement.keyframesHead? : Statement → Option KeyframesHead
  | keyframes name quoted vendor _ => some ⟨name,quoted,vendor⟩
  | _ => none

namespace KeyframesHead

def prefixed (head : KeyframesHead) : KeyframesHead := { head with vendor := some .webkit }

/-- Keyframes under the prefix that `head` needs no copy besides. If `alike`, then both or none have
their name in quotes. -/
def Copies (alike : Bool) (head copy : KeyframesHead) : Prop :=
  copy.vendor = some .webkit ∧ copy.name = head.name ∧ (alike = true → copy.quoted = head.quoted)

instance (alike : Bool) (head copy : KeyframesHead) : Decidable (Copies alike head copy) :=
  inferInstanceAs (Decidable (_ ∧ _ ∧ _))

lemma copies_prefixed (alike : Bool) (head : KeyframesHead) : Copies alike head head.prefixed := ⟨rfl,rfl,fun _ => rfl⟩

lemma Copies.weaken {alike : Bool} {head copy : KeyframesHead} (h : Copies alike head copy) : Copies false head copy :=
  ⟨h.1,h.2.1,nofun⟩

def ArePaired (alike : Bool) (heads : List KeyframesHead) : Prop :=
  ∀ head ∈ heads, head.vendor = none → ∃ copy ∈ heads, Copies alike head copy

def AreMatched (alike : Bool) (heads : List KeyframesHead) : Prop :=
  ∀ head ∈ heads, head.vendor = none → (∃ copy ∈ heads, Copies false head copy) → ∃ copy ∈ heads, Copies alike head copy

instance (alike : Bool) (heads : List KeyframesHead) : Decidable (AreMatched alike heads) :=
  inferInstanceAs (Decidable (∀ head ∈ heads, _ → _ → _))

lemma areMatched_nil (alike : Bool) : AreMatched alike [] := nofun

lemma ArePaired.filter {alike : Bool} {heads : List KeyframesHead} (h : ArePaired alike heads)
    (p : String → Bool) : ArePaired alike (heads.filter fun head => p head.name) := by
  intro head hh hv
  obtain ⟨hm,hp⟩ := mem_filter.mp hh
  obtain ⟨copy,hcp,hc⟩ := h head hm hv
  refine ⟨copy,mem_filter.mpr ⟨hcp,?_⟩,hc⟩
  rw [hc.2.1]
  exact hp

def rename (own : String → String) (head : KeyframesHead) : KeyframesHead :=
  { head with name := if head.quoted then head.name else own head.name }

lemma ArePaired.map_rename {heads : List KeyframesHead} (h : ArePaired true heads)
    (own : String → String) : ArePaired true (heads.map (rename own)) := by
  intro head hh hv
  obtain ⟨pre,hb,rfl⟩ := mem_map.mp hh
  obtain ⟨copy,hc,hw,hn,hq⟩ := h pre hb hv
  refine ⟨copy.rename own,mem_map_of_mem hc,hw,?_,hq⟩
  rw [rename,rename,hn,hq rfl]

end KeyframesHead

def Checks.Copied (c : Checks) : Prop := ∀ sc name quoted frames, c.statement sc (.keyframes name quoted none frames) →
    c.statement sc (.keyframes name quoted (some .webkit) frames)

lemma Checks.Copied.both {c c' : Checks} (h : c.Copied) (h' : c'.Copied) : (c.both c').Copied :=
  fun sc name quoted frames hs =>
    ⟨h sc name quoted frames hs.1,h' sc name quoted frames hs.2⟩

lemma Checks.Copied.when {c : Checks} {p : Prop} (h : c.Copied) : (c.when p).Copied :=
  fun sc name quoted frames hs hp => h sc name quoted frames (hs hp)

namespace Rule
open KeyframesHead

def keyframesHead? : Rule → Option KeyframesHead
  | statement s _ => s.keyframesHead?
  | _ => none

def keyframesHeads (rules : List Rule) : List KeyframesHead := rules.filterMap keyframesHead?

lemma keyframesHeads_cons (r : Rule) (rs : List Rule) :
    keyframesHeads (r :: rs) = r.keyframesHead?.toList ++ keyframesHeads rs := by
  cases h : r.keyframesHead? with
  | none => exact filterMap_cons_none h
  | some head => exact filterMap_cons_some h

lemma keyframesHeads_append (rs ss : List Rule) : keyframesHeads (rs ++ ss) = keyframesHeads rs ++ keyframesHeads ss :=
  filterMap_append

lemma hasKeyframes_iff {name : String} {rs : List Rule} : hasKeyframes .webkit name rs ↔
      ∃ copy ∈ keyframesHeads rs, copy.vendor = some .webkit ∧ copy.name = name := by
  simp only [hasKeyframes,any_eq_true,keyframesHeads,mem_filterMap]
  constructor
  · rintro ⟨r,hr,hh⟩
    split at hh
    · rename_i other quoted vendor frames loc
      rw [Bool.and_eq_true,beq_iff_eq,beq_iff_eq] at hh
      exact ⟨_,⟨_,hr,rfl⟩,hh⟩
    · cases hh
  · rintro ⟨copy,⟨r,hr,hhd⟩,hv,hn⟩
    refine ⟨r,hr,?_⟩
    cases r with
    | statement s loc =>
      cases s with
      | keyframes other quoted vendor frames =>
        cases hhd
        simp only [Bool.and_eq_true,beq_iff_eq]
        exact ⟨hv,hn⟩
      | _ => cases hhd
    | _ => cases hhd

lemma hasKeyframes_iff_copies {head : KeyframesHead} {rs : List Rule} : hasKeyframes .webkit head.name rs ↔
      ∃ copy ∈ keyframesHeads rs, Copies false head copy := by
  rw [hasKeyframes_iff]
  constructor
  · rintro ⟨copy,hc,hv,hn⟩
    exact ⟨copy,hc,hv,hn,nofun⟩
  · rintro ⟨copy,hc,hv,hn,-⟩
    exact ⟨copy,hc,hv,hn⟩

def InGroups (P : List KeyframesHead → Prop) : Rule → Prop
  | group _ rules _ => P (keyframesHeads rules) ∧ AllInGroups P rules
  | _ => True
where
  AllInGroups (P : List KeyframesHead → Prop) : List Rule → Prop
    | [] => True
    | r :: rs => r.InGroups P ∧ AllInGroups P rs

open InGroups

def Together (P : List KeyframesHead → Prop) (rules : List Rule) : Prop := P (keyframesHeads rules) ∧ AllInGroups P rules

section
variable {P Q : List KeyframesHead → Prop} {rules : List Rule}

lemma allInGroups_iff : AllInGroups P rules ↔ ∀ r ∈ rules, r.InGroups P := by
  induction rules with
  | nil => simp [AllInGroups]
  | cons r rs ih => simp [AllInGroups,ih]

lemma allInGroups_append {rs ss : List Rule} : AllInGroups P (rs ++ ss) ↔ AllInGroups P rs ∧ AllInGroups P ss := by
  simp only [allInGroups_iff,mem_append,or_imp,forall_and]

section
variable [DecidablePred P]

mutual

def decideInGroups : (r : Rule) → Decidable (r.InGroups P)
  | .group _ rules _ =>
    have := decideAllInGroups rules
    inferInstanceAs (Decidable (_ ∧ _))
  | .style .. | .nest .. | .statement .. => isTrue trivial

def decideAllInGroups : (rules : List Rule) → Decidable (AllInGroups P rules)
  | [] => isTrue trivial
  | r :: rs =>
    have := decideInGroups r
    have := decideAllInGroups rs
    inferInstanceAs (Decidable (_ ∧ _))

end

instance (rules : List Rule) : Decidable (Together P rules) :=
  have := decideAllInGroups rules (P := P)
  inferInstanceAs (Decidable (_ ∧ _))

end

variable {v : Visitor Id} {f : KeyframesHead → KeyframesHead}

lemma keyframesHeads_visitAll (hv : ∀ s loc, (v.statement s loc).run.keyframesHead? = s.keyframesHead?.map f)
    (rules : List Rule) :
    keyframesHeads (visitAll v rules) = (keyframesHeads rules).map f := by
  induction rules with
  | nil => rfl
  | cons r rs ih =>
    rw [visitAll,keyframesHeads_cons,keyframesHeads_cons,ih,map_append]
    congr 1
    cases r with
    | statement s loc =>
      change (v.statement s loc).run.keyframesHead?.toList = s.keyframesHead?.toList.map f
      rw [hv]
      cases s.keyframesHead? <;> rfl
    | _ => rfl

lemma allInGroups_visitAll (hv : ∀ s loc, (v.statement s loc).run.keyframesHead? = s.keyframesHead?.map f)
    (hPQ : ∀ heads, P heads → Q (heads.map f)) (rules : List Rule)
    (h : AllInGroups P rules) : AllInGroups Q (visitAll v rules) := by
  induction rules using induct with
  | nil => trivial
  | cons r rs hr ih =>
    refine ⟨?_,ih h.2⟩
    cases r with
    | group =>
      refine ⟨?_,hr h.1.2⟩
      rw [keyframesHeads_visitAll hv]
      exact hPQ _ h.1.1
    | _ => trivial

lemma Together.visitAll (h : Together P rules)
    (hv : ∀ s loc, (v.statement s loc).run.keyframesHead? = s.keyframesHead?.map f)
    (hPQ : ∀ heads, P heads → Q (heads.map f)) : Together Q (visitAll v rules) := by
  refine ⟨?_,allInGroups_visitAll hv hPQ rules h.2⟩
  rw [keyframesHeads_visitAll hv]
  exact hPQ _ h.1

lemma Together.visitAll_of_same (h : Together P rules)
    (hv : ∀ s loc, (v.statement s loc).run.keyframesHead? = s.keyframesHead?) :
    Together P (visit.visitAll v rules) := by
  refine h.visitAll (f := id) (fun s loc => ?_) fun heads hh => ?_
  · rw [hv,Option.map_id,id_eq]
  · rw [map_id]
    exact hh

section
variable {unused : List String}

lemma keyframesHeads_removeFrom (rules : List Rule) : keyframesHeads (removeUnused?.removeFrom unused rules) =
      (keyframesHeads rules).filter fun head => !unused.contains head.name := by
  induction rules with
  | nil => rfl
  | cons r rs ih =>
    rw [removeFrom_cons,keyframesHeads_append,ih,keyframesHeads_cons,filter_append]
    congr 1
    cases r with
    | statement s loc =>
      rw [removeUnused?_statement]
      cases s with
      | keyframes name quoted vendor frames =>
        by_cases hn : name ∈ unused <;>
          simp [Statement.keyframesName?,keyframesHeads,keyframesHead?,Statement.keyframesHead?,hn]
      | _ => rfl
    | style b rules =>
      rw [removeUnused?_style]
      cases (keepSelectors unused b).selectors.isEmpty || _ <;> rfl
    | nest b rules =>
      rw [removeUnused?_nest]
      cases (keepSelectors unused b).selectors.isEmpty || _ <;> rfl
    | group g rules loc =>
      rw [removeUnused?_group]
      cases isEmptied rules _ <;> rfl

lemma allInGroups_removeFrom (hP : ∀ heads, P heads → P (heads.filter fun head => !unused.contains head.name))
    (rules : List Rule) (h : AllInGroups P rules) :
    AllInGroups P (removeUnused?.removeFrom unused rules) := by
  induction rules using induct with
  | nil => trivial
  | cons r rs hr ih =>
    rw [removeFrom_cons,allInGroups_append]
    refine ⟨allInGroups_iff.mpr fun r' hr' => ?_,ih h.2⟩
    replace hr' := Option.mem_toList.mp hr'
    cases r with
    | group =>
      rw [removeUnused?_group] at hr'
      obtain ⟨-,rfl⟩ := of_cond_eq_some hr'
      refine ⟨?_,hr h.1.2⟩
      rw [keyframesHeads_removeFrom]
      exact hP _ h.1.1
    | style =>
      rw [removeUnused?_style] at hr'
      obtain ⟨-,rfl⟩ := of_cond_eq_some hr'
      trivial
    | nest =>
      rw [removeUnused?_nest] at hr'
      obtain ⟨-,rfl⟩ := of_cond_eq_some hr'
      trivial
    | statement =>
      rw [removeUnused?_statement] at hr'
      split at hr'
      · cases hr'
      · cases hr'
        trivial

lemma Together.removeUnused (h : Together P rules)
    (hP : ∀ heads, P heads → P (heads.filter fun head => !unused.contains head.name)) :
    Together P (removeUnused unused rules) := by
  unfold Rule.removeUnused
  split
  · exact h
  · refine ⟨?_,allInGroups_removeFrom hP rules h.2⟩
    rw [keyframesHeads_removeFrom]
    exact hP _ h.1

end
end

section
variable {alike : Bool}

lemma mem_keyframesHeads_prefixKeyframes (siblings : List Rule) (r : Rule) (head : KeyframesHead) :
    head ∈ keyframesHeads (r.prefixKeyframes siblings) ↔ head ∈ r.keyframesHead?.toList ∨
      ∃ pre ∈ r.keyframesHead?.toList, pre.vendor = none ∧
        hasKeyframes .webkit pre.name siblings = false ∧ head = pre.prefixed := by
  cases r with
  | statement s loc =>
    cases s with
    | keyframes name quoted vendor frames =>
      cases vendor with
      | none =>
        rw [prefixKeyframes]
        cases hh : hasKeyframes .webkit name siblings with
        | true => simp [keyframesHeads,keyframesHead?,Statement.keyframesHead?,hh]
        | false =>
          simp [keyframesHeads,keyframesHead?,Statement.keyframesHead?,hh,prefixed,or_comm]
      | some vendor =>
        simp [prefixKeyframes,keyframesHeads,keyframesHead?,Statement.keyframesHead?]
    | _ => simp [prefixKeyframes,keyframesHeads,keyframesHead?,Statement.keyframesHead?]
  | _ => simp [prefixKeyframes,keyframesHeads,keyframesHead?]

lemma mem_keyframesHeads_prefixAll (siblings rules : List Rule) (head : KeyframesHead) :
    head ∈ keyframesHeads (prefixAll siblings rules) ↔
      head ∈ keyframesHeads rules ∨ ∃ pre ∈ keyframesHeads rules, pre.vendor = none ∧
        hasKeyframes .webkit pre.name siblings = false ∧ head = pre.prefixed := by
  induction rules with
  | nil => simp [prefixAll,keyframesHeads]
  | cons r rs ih =>
    simp only [prefixAll,keyframesHeads_append,keyframesHeads_cons,
      mem_append,ih,mem_keyframesHeads_prefixKeyframes,or_and_right,exists_or]
    exact or_or_or_comm ..

variable {rules : List Rule}

lemma arePaired_prefixAll (h : AreMatched alike (keyframesHeads rules)) :
    ArePaired alike (keyframesHeads (prefixAll rules rules)) := by
  intro head hh hv
  simp only [mem_keyframesHeads_prefixAll] at hh ⊢
  rcases hh with hh | ⟨pre,-,-,-,rfl⟩
  · cases hhs : hasKeyframes .webkit head.name rules with
    | true =>
      obtain ⟨copy,hc,hcp⟩ := h head hh hv (hasKeyframes_iff_copies.mp hhs)
      exact ⟨copy,.inl hc,hcp⟩
    | false => exact ⟨_,.inr ⟨head,hh,hv,hhs,rfl⟩,copies_prefixed alike head⟩
  · cases hv

lemma allInGroups_prefixAll (siblings rules : List Rule) (h : AllInGroups (AreMatched alike) rules) :
    AllInGroups (ArePaired alike) (prefixAll siblings rules) := by
  induction rules using induct generalizing siblings with
  | nil => trivial
  | cons r rs hr ih =>
    refine allInGroups_append.mpr ⟨?_,ih siblings h.2⟩
    cases r with
    | group g rules loc =>
      rw [prefixKeyframes]
      exact ⟨⟨arePaired_prefixAll h.1.1,hr rules h.1.2⟩,trivial⟩
    | statement s loc =>
      rw [allInGroups_iff]
      unfold prefixKeyframes
      split
      · split
        · rintro _ (_ | ⟨_,⟨⟩⟩)
          trivial
        · rintro _ (_ | ⟨_,_ | ⟨_,⟨⟩⟩⟩) <;> trivial
      · rename_i heq
        cases heq
      · rintro _ (_ | ⟨_,⟨⟩⟩)
        trivial
    | _ => exact ⟨trivial,trivial⟩

lemma together_prefixAllKeyframes (h : Together (AreMatched alike) rules) :
    Together (ArePaired alike) (prefixAllKeyframes rules) :=
  ⟨arePaired_prefixAll h.1,allInGroups_prefixAll rules rules h.2⟩

lemma hasKeyframes_of_arePaired (h : ArePaired alike (keyframesHeads rules)) : ∀ head ∈ keyframesHeads rules,
      head.vendor = none → hasKeyframes .webkit head.name rules := by
  intro head hh hv
  obtain ⟨copy,hc,hcp⟩ := h head hh hv
  exact hasKeyframes_iff_copies.mpr ⟨copy,hc,hcp.weaken⟩

lemma prefixAll_eq_self {siblings : List Rule}
    (hp : ∀ head ∈ keyframesHeads rules, head.vendor = none → hasKeyframes .webkit head.name siblings)
    (h : AllInGroups (ArePaired alike) rules) :
    prefixAll siblings rules = rules := by
  induction rules using induct generalizing siblings with
  | nil => rfl
  | cons r rs hr ih =>
    simp only [keyframesHeads_cons,mem_append,Option.mem_toList,or_imp,forall_and] at hp
    have hs : r.prefixKeyframes siblings = [r] := by
      cases r with
      | group => rw [prefixKeyframes,hr (hasKeyframes_of_arePaired h.1.1) h.1.2]
      | statement s loc =>
        cases s with
        | keyframes name quoted vendor frames =>
          cases vendor with
          | none => rw [prefixKeyframes,if_pos (hp.1 ⟨name,quoted,none⟩ rfl rfl)]
          | some vendor => rfl
        | _ => rfl
      | _ => rfl
    rw [prefixAll,hs,ih hp.2 h.2]; rfl

lemma prefixAllKeyframes_eq_self (h : Together (ArePaired alike) rules) : prefixAllKeyframes rules = rules :=
  prefixAll_eq_self (hasKeyframes_of_arePaired h.1) h.2

section
variable {c : Checks}

lemma allHold_prefixAll (hc : c.Copied) (siblings rules : List Rule) {sc : Scope} (h : AllHold c sc rules) :
    AllHold c sc (prefixAll siblings rules) := by
  induction rules using induct generalizing siblings sc with
  | nil => trivial
  | cons r rs hr ih =>
    obtain ⟨h,hs⟩ := h
    refine allHold_append.mpr ⟨?_,ih siblings hs⟩
    cases r with
    | group g rules loc =>
      rw [prefixKeyframes]
      exact ⟨⟨h.1,hr rules h.2⟩,trivial⟩
    | statement s loc =>
      cases s with
      | keyframes name quoted vendor frames =>
        cases vendor with
        | none =>
          rw [prefixKeyframes]
          split
          · exact ⟨h,trivial⟩
          · exact ⟨hc sc name quoted frames h,h,trivial⟩
        | some vendor => exact ⟨h,trivial⟩
      | _ => exact ⟨h,trivial⟩
    | _ => exact ⟨h,trivial⟩

lemma allHold_prefixAllKeyframes (hc : c.Copied) {sc : Scope} (h : AllHold c sc rules) :
    AllHold c sc (prefixAllKeyframes rules) :=
  allHold_prefixAll hc rules rules h

end
end

section
variable {P : List KeyframesHead → Prop}

lemma keyframesHead?_eq_none {s : Statement} (h : s.isAllowed .style) : s.keyframesHead? = none := by
  cases s with
  | keyframes => cases h
  | _ => rfl

lemma keyframesHeads_eq_nil {rs : List Rule} (h : AllHold parsed .style rs) : keyframesHeads rs = [] := by
  rw [keyframesHeads,filterMap_eq_nil_iff]
  intro r hr
  have hh := allHold_iff.mp h r hr
  cases r with
  | statement s loc => exact keyframesHead?_eq_none hh.1
  | _ => rfl

lemma keyframesHeads_alone (b : StyleBlock) (sels : List Selector) : keyframesHeads (b.alone sels) = [] := by
  unfold StyleBlock.alone
  split <;> rfl

lemma keyframesHeads_unnestAll (rules : List Rule) (sc : Scope)
    (qs : Option (List Selector)) (h : AllHold parsed sc rules) :
    keyframesHeads (unnestAll qs rules) = keyframesHeads rules := by
  induction rules using induct generalizing sc qs with
  | nil => rfl
  | cons r rs hr ih =>
    rw [unnestAll,keyframesHeads_append,keyframesHeads_cons,ih sc qs h.2]
    congr 1
    cases r with
    | style =>
      rw [unnest,keyframesHeads_append,keyframesHeads_alone,hr .style _ h.1.2,keyframesHeads_eq_nil h.1.2]
      rfl
    | nest =>
      rw [unnest,keyframesHeads_append,keyframesHeads_alone,hr .style _ h.1.2.2,keyframesHeads_eq_nil h.1.2.2]
      rfl
    | group => rfl
    | statement =>
      rw [unnest,keyframesHeads_cons]
      exact append_nil _

lemma allInGroups_alone (b : StyleBlock) (sels : List Selector) : AllInGroups P (b.alone sels) := by
  unfold StyleBlock.alone
  split
  · trivial
  · exact ⟨trivial,trivial⟩

lemma allInGroups_unnestAll (hn : P []) (rules : List Rule) (sc : Scope)
    (qs : Option (List Selector)) (h : AllHold parsed sc rules)
    (hg : sc ≠ .style → AllInGroups P rules) :
    AllInGroups P (unnestAll qs rules) := by
  induction rules using induct generalizing sc qs with
  | nil => trivial
  | cons r rs hr ih =>
    obtain ⟨h,hs⟩ := h
    refine allInGroups_append.mpr ⟨?_,ih sc qs hs fun hne => (hg hne).2⟩
    cases r with
    | style b =>
      exact allInGroups_append.mpr ⟨allInGroups_alone b _,hr .style _ h.2 fun hne => absurd rfl hne⟩
    | nest b =>
      exact allInGroups_append.mpr ⟨allInGroups_alone b _,hr .style _ h.2.2 fun hne => absurd rfl hne⟩
    | group g rules loc =>
      have hi : sc.inside ≠ .style → AllInGroups P rules := by
        intro hne
        refine (hg ?_).1.2
        rintro rfl
        exact hne rfl
      refine ⟨⟨?_,hr sc.inside qs h.2 hi⟩,trivial⟩
      rw [keyframesHeads_unnestAll rules sc.inside qs h.2]
      by_cases hs : sc = .style
      · subst hs
        rw [keyframesHeads_eq_nil h.2]
        exact hn
      · exact (hg hs).1.1
    | statement => exact ⟨trivial,trivial⟩

lemma Together.unnestAll (hn : P []) {rs : List Rule} (hp : AllHold parsed .top rs) (h : Together P rs) :
    Together P (unnestAll none rs) := by
  refine ⟨?_,allInGroups_unnestAll hn rs .top none hp fun _ => h.2⟩
  rw [keyframesHeads_unnestAll rs .top none hp]
  exact h.1

end
end Rule
end Css
