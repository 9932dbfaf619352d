import Css.Proofs.Nesting.Names
import Mathlib.Data.Set.Basic

/-!
# What elements get from rules without unused names

Where no element has an unused name, to remove the names takes no declaration from an element, except
those of rules nested in a rule that is removed.
-/
namespace Css
open List Part.select

structure Rendering extends Document where
  hasState : Element → String → Option String → Prop
  hasStateOf : Element → String → (Element → Prop) → Prop
  isPseudoElement : Element → String → Option String → Element → Prop
  root : Element → Prop
  applies : Group → Prop

/-- Where a relative selector starts from an element: at the element, or below it if the selector does
not start with a combinator. -/
def Rendering.anchor (r : Rendering) (x : r.Element) (s : Selector) : r.Element → Prop :=
  if s.isRelative then (· = x) else r.leads .descendant x

/-- What is selected after a part, if `start` is selected before it and `scope` by the enclosing rule.
A selector that belongs to no file is read in its place. -/
def Part.reach (r : Rendering) (scope start : r.Element → Prop) : Part → r.Element → Prop
  | combinator c, y => ∃ x, r.leads c x y ∧ start x
  | universal, y => start y
  | element name, y => start y ∧ r.hasName y name
  | className name, y => start y ∧ r.hasClass y name
  | idName name, y => start y ∧ r.hasId y name
  | attr name test, y => start y ∧ r.hasAttribute y name test
  | pseudoClass name, y => start y ∧ r.hasState y name none
  | pseudoClassText name arguments, y => start y ∧ r.hasState y name (some arguments)
  | pseudoClassOf name selectors, y =>
    start y ∧ if name = "not" then ¬reachAny scope selectors y
      else if isMatchingName name then reachAny scope selectors y
      else if name = "has" then reachFrom scope y selectors
      else r.hasStateOf y name (reachAny scope selectors)
  | pseudoElement name, y => ∃ x, r.isPseudoElement x name none y ∧ start x
  | pseudoElementText name arguments, y =>
    ∃ x, r.isPseudoElement x name (some arguments) y ∧ start x
  | nesting, y => start y ∧ scope y
  | global selector, y => reachList scope start selector y
where
  reachList (scope start : r.Element → Prop) : List Part → r.Element → Prop
    | [], y => start y
    | p :: ps, y => reachList scope (p.reach r scope start) ps y
  reachAny (scope : r.Element → Prop) : List (List Part) → r.Element → Prop
    | [], _ => False
    | s :: ss, y => reachList scope (fun _ => True) s y ∨ reachAny scope ss y
  reachFrom (scope : r.Element → Prop) (x : r.Element) : List (List Part) → Prop
    | [] => False
    | s :: ss => (∃ y, reachList scope (r.anchor x s) s y) ∨ reachFrom scope x ss

namespace Part
open reach
variable {r : Rendering}

section

lemma reach_not {scope start : r.Element → Prop} (sels : List (List Part)) :
    (pseudoClassOf "not" sels).reach r scope start = fun y => start y ∧ ¬reachAny r scope sels y := by
  funext y
  rw [reach,if_pos rfl]

lemma reach_matching {scope start : r.Element → Prop} {name : String}
    (hn : isMatchingName name) (sels : List (List Part)) :
    (pseudoClassOf name sels).reach r scope start = fun y => start y ∧ reachAny r scope sels y := by
  have hnt : name ≠ "not" := by
    rintro rfl
    exact absurd hn (by decide)
  funext y
  rw [reach,if_neg hnt,if_pos hn]

lemma reach_eq_select (scope : r.Element → Prop) : (∀ ps, isPlain.listPlain ps → ∀ start,
      reachList r scope start ps = selectList r.toDocument scope start ps) ∧
    ∀ ss, isPlain.allPlain ss → reachAny r scope ss = selectAny r.toDocument scope ss := by
  refine induct (fun _ _ => rfl) ?_ (fun _ => rfl) ?_
  · intro p ps hi ih h start
    obtain ⟨hp,hps⟩ := Bool.and_eq_true_iff.mp h
    have hs : p.reach r scope start = p.select r.toDocument scope start := by
      cases p with
      | pseudoClassOf name sels =>
        obtain ⟨hn,hl⟩ := Bool.and_eq_true_iff.mp hp
        simp only [contains_eq_mem,mem_cons,not_mem_nil,or_false,decide_eq_true_eq] at hn
        rcases hn with rfl | rfl | rfl
        · rw [reach_not,hi hl]; rfl
        · rw [reach_matching (by decide),hi hl]; rfl
        · rw [reach_matching (by decide),hi hl]; rfl
      | pseudoClass | pseudoClassText | pseudoElement | pseudoElementText | global => cases hp
      | _ => rfl
    funext y
    simp only [reachList,selectList]
    rw [hs,ih hps]
  · intro s ss hs ih h
    obtain ⟨h,hss⟩ := Bool.and_eq_true_iff.mp h
    funext y
    simp only [reachAny,selectAny]
    rw [hs h,ih hss]

end

lemma not_reach_of_empty {scope : r.Element → Prop} : (∀ ps start, (∀ y, ¬start y) → ∀ y, ¬reachList r scope start ps y) ∧
    ∀ ss : List (List Part), ∀ s ∈ ss, ∀ start, (∀ y, ¬start y) → ∀ y, ¬reachList r scope start s y := by
  refine induct (fun _ => id) ?_ (forall_mem_nil _) fun s ss hs ih => forall_mem_cons.mpr ⟨hs,ih⟩
  intro p ps hi ih start hs y
  refine ih _ (fun y h => ?_) y
  cases p with
  | global sel => exact hi sel mem_cons_self start hs y h
  | combinator | pseudoElement | pseudoElementText =>
    obtain ⟨x,_,hx⟩ := h
    exact hs x hx
  | universal => exact hs y h
  | _ => exact hs y h.1

/-- Whether the part asks for a part that satisfies `leaf` to select something: it is one, or each of
the selectors one of which must do has one. -/
def demands (leaf : Part → Bool) : Part → Bool
  | pseudoClassOf name selectors =>
    (isMatchingName name || name == "has") && allDemand leaf selectors
  | global selector => listDemands leaf selector
  | part => leaf part
where
  listDemands (leaf : Part → Bool) : List Part → Bool
    | [] => false
    | p :: ps => p.demands leaf || listDemands leaf ps
  allDemand (leaf : Part → Bool) : List (List Part) → Bool
    | [] => true
    | s :: ss => listDemands leaf s && allDemand leaf ss

open demands

section
variable {leaf : Part → Bool} {scope : r.Element → Prop}

lemma of_reach_pseudoClassOf {start : r.Element → Prop} {name : String} {selectors : List (List Part)} {y : r.Element}
    (hn : (isMatchingName name || name == "has"))
    (h : (pseudoClassOf name selectors).reach r scope start y) :
    reachAny r scope selectors y ∨ reachFrom r scope y selectors := by
  cases hm : isMatchingName name with
  | true =>
    rw [reach_matching hm] at h
    exact .inl h.2
  | false =>
    rw [hm,Bool.false_or,beq_iff_eq] at hn
    subst hn
    right
    have hh := h.2
    rw [if_neg (by decide),if_neg (by decide),if_pos rfl] at hh
    exact hh

lemma not_reachAny {ss : List (List Part)} (h : ∀ s ∈ ss, ∀ start y, ¬reachList r scope start s y) (y : r.Element) :
    ¬(reachAny r scope ss y ∨ reachFrom r scope y ss) := by
  induction ss with
  | nil => exact fun h => h.elim id id
  | cons s ss ih =>
    obtain ⟨hs,hss⟩ := forall_mem_cons.mp h
    rintro ((hy | hy) | ⟨z,hz⟩ | hy)
    · exact hs _ y hy
    · exact ih hss (.inl hy)
    · exact hs _ z hz
    · exact ih hss (.inr hy)

lemma not_reach_of_demands (hl : ∀ p start y, leaf p → ¬p.reach r scope start y) :
    (∀ ps, listDemands leaf ps → ∀ start y, ¬reachList r scope start ps y) ∧
    ∀ ss, allDemand leaf ss → ∀ s ∈ ss, ∀ start y, ¬reachList r scope start s y := by
  refine induct (fun h => by cases h) ?_ (fun _ => forall_mem_nil _) ?_
  · intro p ps hi ih h start y
    rcases Bool.or_eq_true_iff.mp h with hp | hps
    · refine not_reach_of_empty.1 ps _ (fun y hr => ?_) y
      cases p with
      | pseudoClassOf =>
        obtain ⟨hn,hs⟩ := Bool.and_eq_true_iff.mp hp
        exact not_reachAny (hi hs) y (of_reach_pseudoClassOf hn hr)
      | global sel =>
        exact hi (Bool.and_eq_true_iff.mpr ⟨hp,rfl⟩) sel mem_cons_self start y hr
      | _ => exact hl _ start y hp hr
    · exact ih hps (p.reach r scope start) y
  · intro s ss hs ih h
    obtain ⟨h,hss⟩ := Bool.and_eq_true_iff.mp h
    exact forall_mem_cons.mpr ⟨hs h,ih hss⟩

end

def hasNameIn (names : List String) : Part → Bool
  | className name | idName name => names.contains name
  | _ => false

lemma demands_of_requiresAny {ns : List String} :
    (∀ ps, requiresAny.selectorRequires ns ps → listDemands (hasNameIn ns) ps) ∧
    ∀ ss, requiresAny.allRequire ns ss → allDemand (hasNameIn ns) ss := by
  refine induct (fun h => by cases h) ?_ (fun _ => rfl) ?_
  · intro p ps hi ih h
    rw [listDemands,Bool.or_eq_true]
    refine (Bool.or_eq_true_iff.mp h).imp (fun hp => ?_) ih
    cases p with
    | pseudoClassOf name selectors =>
      rw [requiresAny,Bool.and_eq_true,Bool.and_eq_true] at hp
      rw [demands,hp.1.1,hi hp.2]; rfl
    | className | idName => exact hp
    | _ => cases hp
  · intro s ss hs ih h
    obtain ⟨h,hss⟩ := Bool.and_eq_true_iff.mp h
    rw [allDemand,hs h,ih hss]; rfl

end Part

def Rendering.Lacks (r : Rendering) (names : List String) : Prop :=
  ∀ name ∈ names, ∀ e, ¬r.hasClass e name ∧ ¬r.hasId e name

/-- Where no element has one of the names, a selector that asks for one selects nothing. -/
lemma Rendering.Lacks.not_reachList {r : Rendering} {ns : List String} (hr : r.Lacks ns)
    {s : Selector} (hs : s.requiresAny ns) (scope start : r.Element → Prop)
    (y : r.Element) : ¬Part.reach.reachList r scope start s y := by
  rw [← Part.selectorRequires_eq] at hs
  refine (Part.not_reach_of_demands ?_).1 s (Part.demands_of_requiresAny.1 s hs) start y
  intro p start y hp hrc
  cases p with
  | className name => exact (hr name (contains_iff_mem.mp hp) y).1 hrc.2
  | idName name => exact (hr name (contains_iff_mem.mp hp) y).2 hrc.2
  | _ => cases hp

end Css

namespace Css
open List Part.reach Rule.removeUnused? StyleBlock
variable {r : Rendering} {unused : List String}

/-- What a selector selects inside of a rule that selects `scope`, if it is inside of one. -/
def Selector.reaches (r : Rendering) : Option (r.Element → Prop) → Selector → r.Element → Prop
  | none, s => reachList r r.root (fun _ => True) s
  | some sc, s =>
    if s.isRelative then reachList r sc sc s
    else if s.hasNesting then reachList r sc (fun _ => True) s
    else reachList r sc sc (.combinator .descendant :: s)

/-- Where a document alone gives a selector its meaning, a rendering gives it the same. -/
lemma Selector.reaches_eq_selectsIn {s : Selector} (hs : s.isPlain = true) (sc : r.Element → Prop) :
    s.reaches r (some sc) = s.selectsIn r.toDocument sc := by
  have hc : Part.isPlain.listPlain (.combinator .descendant :: s) = true := hs
  unfold reaches selectsIn
  simp only [(Part.reach_eq_select sc).1 s hs,(Part.reach_eq_select sc).1 _ hc]

def StyleBlock.reaches (r : Rendering) (sc : Option (r.Element → Prop)) (b : StyleBlock) : r.Element → Prop :=
  fun e => ∃ s ∈ b.selectors, s.reaches r sc e

namespace Rule

/-- Whether an element gets a declaration from a rule, itself or from one inside of it. Style rules
that are hidden count for nothing, with all that is inside of them. -/
def Styles (r : Rendering) (isHidden : StyleBlock → Bool) (sc : Option (r.Element → Prop))
    (e : r.Element) (d : Declaration) : Rule → Prop
  | style b rules =>
    isHidden b = false ∧ (b.reaches r sc e ∧ d ∈ b.declarations ∨ AnyStyles isHidden (some (b.reaches r sc)) e d rules)
  | nest b rules =>
    isHidden b = false ∧ (b.reaches r sc e ∧ d ∈ b.declarations ∨ AnyStyles isHidden (some (b.reaches r sc)) e d rules)
  | group g rules _ => r.applies g ∧ AnyStyles isHidden sc e d rules
  | statement .. => False
where
  AnyStyles (isHidden : StyleBlock → Bool) (sc : Option (r.Element → Prop)) (e : r.Element)
      (d : Declaration) : List Rule → Prop
    | [] => False
    | rule :: rules => rule.Styles r isHidden sc e d ∨ AnyStyles isHidden sc e d rules

open Styles

def matchedOutside (r : Rendering) (isHidden : StyleBlock → Bool) (rules : List Rule) : Set (r.Element × Declaration) :=
  {p | AnyStyles r isHidden none p.1 p.2 rules}

def matched (r : Rendering) (rules : List Rule) : Set (r.Element × Declaration) := matchedOutside r (fun _ => false) rules

lemma anyStyles_append {isHidden : StyleBlock → Bool} {sc : Option (r.Element → Prop)}
    {e : r.Element} {d : Declaration} (rs others : List Rule) :
    AnyStyles r isHidden sc e d (rs ++ others) ↔ AnyStyles r isHidden sc e d rs ∨ AnyStyles r isHidden sc e d others := by
  induction rs with
  | nil => exact (false_or _).to_iff.symm
  | cons rule rs ih =>
    rw [cons_append,AnyStyles,AnyStyles,ih,or_assoc]

section
variable {isHidden : StyleBlock → Bool} {e : r.Element} {d : Declaration}

lemma anyStyles_of_hidden (rs : List Rule) (sc : Option (r.Element → Prop)) (h : AnyStyles r isHidden sc e d rs) :
    AnyStyles r (fun _ => false) sc e d rs := by
  induction rs using induct generalizing sc with
  | nil => exact h
  | cons rule rs hr ih =>
    refine h.imp (fun h => ?_) (ih sc)
    cases rule with
    | style b | nest b => exact ⟨rfl,h.2.imp id (hr (some (b.reaches r sc)))⟩
    | group => exact ⟨h.1,hr sc h.2⟩
    | statement => exact h

end

lemma matchedOutside_subset (r : Rendering) (isHidden : StyleBlock → Bool) (rules : List Rule) :
    matchedOutside r isHidden rules ⊆ matched r rules :=
  fun _ => anyStyles_of_hidden rules none

end Rule

def StyleBlock.isDropped (unused : List String) (b : StyleBlock) : Bool :=
  !unused.isEmpty && b.selectors.all fun s => s.requiresAny unused

section

lemma Selector.not_reaches_of_requiresAny (hr : r.Lacks unused) {s : Selector}
    (hs : s.requiresAny unused = true) (sc : Option (r.Element → Prop)) (e : r.Element) :
    ¬s.reaches r sc e := by
  cases sc with
  | none => exact hr.not_reachList hs _ _ e
  | some sc =>
    have hc : Selector.requiresAny unused (.combinator .descendant :: s) = true := hs
    unfold reaches
    simp only
    split
    · exact hr.not_reachList hs _ _ e
    · split
      · exact hr.not_reachList hs _ _ e
      · exact hr.not_reachList hc _ _ e

lemma reaches_keepSelectors (hr : r.Lacks unused) (sc : Option (r.Element → Prop))
    (b : StyleBlock) : (Rule.keepSelectors unused b).reaches r sc = b.reaches r sc := by
  funext e
  apply propext
  constructor
  · rintro ⟨s,hs,he⟩
    exact ⟨s,(mem_filter.mp hs).1,he⟩
  · rintro ⟨s,hs,he⟩
    refine ⟨s,mem_filter.mpr ⟨hs,?_⟩,he⟩
    cases hrq : s.requiresAny unused with
    | true => exact absurd he (Selector.not_reaches_of_requiresAny hr hrq sc e)
    | false => rfl

lemma isEmpty_keepSelectors (hu : unused ≠ []) (b : StyleBlock) :
    (Rule.keepSelectors unused b).selectors.isEmpty = b.isDropped unused := by
  have hs : unused.isEmpty = false := isEmpty_eq_false_iff.mpr hu
  rw [StyleBlock.isDropped,hs,Bool.eq_iff_iff]
  simp [Rule.keepSelectors,filter_eq_nil_iff]

namespace Rule
open Styles
variable {e : r.Element} {d : Declaration}

lemma not_anyStyles_of_isEmptied {rules post : List Rule} {sc : Option (r.Element → Prop)} {isHidden : StyleBlock → Bool}
    (h : AnyStyles r (fun _ => false) sc e d post ↔ AnyStyles r isHidden sc e d rules)
    (he : isEmptied rules post = true) : ¬AnyStyles r isHidden sc e d rules := by
  have ha : post = [] := List.isEmpty_iff.mp (Bool.and_eq_true_iff.mp he).2
  rw [← h,ha]
  exact id

lemma anyStyles_cond (hr : r.Lacks unused) (hu : unused ≠ []) {b : StyleBlock}
    {rs : List Rule} {sc : Option (r.Element → Prop)} {isSilent : Bool} {kept : Rule}
    (hk : kept.Styles r (fun _ => false) sc e d ↔ ((keepSelectors unused b).reaches r sc e ∧ d ∈ b.declarations ∨
        AnyStyles r (fun _ => false) (some ((keepSelectors unused b).reaches r sc)) e d (removeFrom unused rs)))
    (hs : isSilent = true → isEmptied rs (removeFrom unused rs) = true ∧ b.declarations = [])
    (hrl : AnyStyles r (fun _ => false) (some (b.reaches r sc)) e d (removeFrom unused rs) ↔
      AnyStyles r (isDropped unused) (some (b.reaches r sc)) e d rs) :
    AnyStyles r (fun _ => false) sc e d
        (bif (keepSelectors unused b).selectors.isEmpty || isSilent then none else some kept).toList ↔
      b.isDropped unused = false ∧ (b.reaches r sc e ∧ d ∈ b.declarations ∨
          AnyStyles r (isDropped unused) (some (b.reaches r sc)) e d rs) := by
  rw [isEmpty_keepSelectors hu]
  rw [reaches_keepSelectors hr] at hk
  cases hd : b.isDropped unused with
  | true => simp [AnyStyles]
  | false =>
    cases isSilent with
    | true =>
      obtain ⟨he,hn⟩ := hs rfl
      have hns := not_anyStyles_of_isEmptied hrl he
      simp [AnyStyles,hn,hns]
    | false => simp [AnyStyles,hk,hrl]

lemma anyStyles_removeFrom (hr : r.Lacks unused) (hu : unused ≠ []) (rs : List Rule) (sc : Option (r.Element → Prop)) :
    AnyStyles r (fun _ => false) sc e d (removeFrom unused rs) ↔
      AnyStyles r (isDropped unused) sc e d rs := by
  induction rs using induct generalizing sc with
  | nil => exact Iff.rfl
  | cons rule rs ihr ih =>
    rw [removeFrom_cons,anyStyles_append,ih sc]
    refine or_congr_left ?_
    cases rule with
    | style b =>
      rw [removeUnused?_style]
      apply anyStyles_cond hr hu
      · exact and_iff_right rfl
      · intro h
        simp only [Bool.and_eq_true,List.isEmpty_iff] at h
        exact h.1
      · exact ihr (some (b.reaches r sc))
    | nest b =>
      rw [removeUnused?_nest]
      apply anyStyles_cond hr hu
      · exact and_iff_right rfl
      · intro h
        simpa only [Bool.and_eq_true,List.isEmpty_iff] using h
      · exact ihr (some (b.reaches r sc))
    | group g rs =>
      have hrl := ihr sc
      rw [removeUnused?_group]
      cases he : isEmptied rs (removeFrom unused rs) with
      | true =>
        have hn := not_anyStyles_of_isEmptied hrl he
        simp [AnyStyles,Styles,hn]
      | false => simp [AnyStyles,Styles,hrl]
    | statement =>
      rw [removeUnused?_statement]
      split <;> simp [AnyStyles,Styles]

/-- What is left of rules gives what the rules give that are not removed for their selectors. -/
lemma matched_removeUnused (hr : r.Lacks unused) (rules : List Rule) :
    matched r (removeUnused unused rules) = matchedOutside r (isDropped unused) rules := by
  cases unused with
  | nil => rfl
  | cons name ns =>
    ext p
    exact anyStyles_removeFrom hr (cons_ne_nil name ns) rules none

end Rule
end

/-- Whether a nested selector selects nothing if the enclosing rule does: it starts from that rule, or
what it selects is selected by that rule or has to do with something that is. -/
def Selector.needsEnclosing (s : Selector) : Bool :=
  s.isRelative || !s.hasNesting || Part.demands.listDemands Part.isNesting s

namespace Rule

def needsEnclosing : Rule → Bool
  | style b rules => b.selectors.all Selector.needsEnclosing && allNeedEnclosing rules
  | nest b rules => b.selectors.all Selector.needsEnclosing && allNeedEnclosing rules
  | group _ rules _ => allNeedEnclosing rules
  | statement .. => true
where
  allNeedEnclosing : List Rule → Bool
    | [] => true
    | rule :: rules => rule.needsEnclosing && allNeedEnclosing rules

def isSeparable (unused : List String) : Rule → Bool
  | style b rules =>
    if b.isDropped unused then needsEnclosing.allNeedEnclosing rules else allSeparable rules
  | nest b rules =>
    if b.isDropped unused then needsEnclosing.allNeedEnclosing rules else allSeparable rules
  | group _ rules _ => allSeparable rules
  | statement .. => true
where
  allSeparable : List Rule → Bool
    | [] => true
    | rule :: rules => rule.isSeparable unused && allSeparable rules

end Rule

section

lemma Selector.not_reaches_of_needsEnclosing {sc : r.Element → Prop} (hsc : ∀ e, ¬sc e)
    {s : Selector} (hs : s.needsEnclosing = true) (e : r.Element) :
    ¬s.reaches r (some sc) e := by
  unfold reaches
  simp only
  cases hr : s.isRelative with
  | true => exact Part.not_reach_of_empty.1 s _ hsc e
  | false =>
    cases hn : s.hasNesting with
    | false => exact Part.not_reach_of_empty.1 _ _ hsc e
    | true =>
      rw [needsEnclosing,hr,hn] at hs
      refine (Part.not_reach_of_demands ?_).1 s hs _ e
      intro p start y hp hrc
      cases p with
      | nesting => exact hsc y hrc.2
      | _ => cases hp

lemma StyleBlock.not_reaches_of_needsEnclosing {sc : r.Element → Prop} (hsc : ∀ e, ¬sc e) {b : StyleBlock}
    (hb : b.selectors.all Selector.needsEnclosing = true) (e : r.Element) :
    ¬b.reaches r (some sc) e := by
  rintro ⟨s,hs,he⟩
  exact s.not_reaches_of_needsEnclosing hsc (all_eq_true.mp hb s hs) e he

lemma StyleBlock.not_reaches_of_isDropped (hr : r.Lacks unused) {b : StyleBlock}
    (hb : b.isDropped unused = true) (sc : Option (r.Element → Prop)) (e : r.Element) :
    ¬b.reaches r sc e := by
  have ha := (Bool.and_eq_true_iff.mp hb).2
  rintro ⟨s,hs,he⟩
  exact s.not_reaches_of_requiresAny hr (all_eq_true.mp ha s hs) sc e he

namespace Rule
open Styles
variable {e : r.Element} {d : Declaration} {isHidden : StyleBlock → Bool}

lemma not_anyStyles_of_allNeedEnclosing (rs : List Rule) {sc : r.Element → Prop}
    (hsc : ∀ e, ¬sc e) (h : needsEnclosing.allNeedEnclosing rs) :
    ¬AnyStyles r isHidden (some sc) e d rs := by
  induction rs using induct generalizing sc with
  | nil => exact id
  | cons rule rs ihr ih =>
    obtain ⟨hr,hrl⟩ := Bool.and_eq_true_iff.mp h
    refine not_or_intro (fun hs => ?_) (ih hsc hrl)
    cases rule with
    | style b | nest b =>
      obtain ⟨hb,hr⟩ := Bool.and_eq_true_iff.mp hr
      have hn := not_reaches_of_needsEnclosing hsc hb
      rcases hs.2 with ho | hns
      · exact hn e ho.1
      · exact ihr hn hr hns
    | group => exact ihr hsc hr hs.2
    | statement => exact hs

lemma styles_of_separable (hr : r.Lacks unused) {b : StyleBlock} {rs : List Rule} {sc : Option (r.Element → Prop)}
    (h : (if b.isDropped unused then needsEnclosing.allNeedEnclosing rs
      else isSeparable.allSeparable unused rs) = true)
    (hrl : isSeparable.allSeparable unused rs = true →
      AnyStyles r (fun _ => false) (some (b.reaches r sc)) e d rs →
        AnyStyles r (isDropped unused) (some (b.reaches r sc)) e d rs)
    (hs : b.reaches r sc e ∧ d ∈ b.declarations ∨ AnyStyles r (fun _ => false) (some (b.reaches r sc)) e d rs) :
    b.isDropped unused = false ∧ (b.reaches r sc e ∧ d ∈ b.declarations ∨
        AnyStyles r (isDropped unused) (some (b.reaches r sc)) e d rs) := by
  cases hd : b.isDropped unused with
  | true =>
    rw [hd,if_pos rfl] at h
    have hn := not_reaches_of_isDropped hr hd sc
    rcases hs with ho | hns
    · exact absurd ho.1 (hn e)
    · exact absurd hns (not_anyStyles_of_allNeedEnclosing rs hn h)
  | false =>
    rw [hd,if_neg Bool.false_ne_true] at h
    exact ⟨rfl,hs.imp id (hrl h)⟩

lemma anyStyles_of_allSeparable (hr : r.Lacks unused) (rs : List Rule)
    (sc : Option (r.Element → Prop)) (h : isSeparable.allSeparable unused rs)
    (hs : AnyStyles r (fun _ => false) sc e d rs) :
    AnyStyles r (isDropped unused) sc e d rs := by
  induction rs using induct generalizing sc with
  | nil => exact hs
  | cons rule rs ihr ih =>
    obtain ⟨h,hrs⟩ := Bool.and_eq_true_iff.mp h
    refine hs.imp (fun hs => ?_) (ih sc hrs)
    cases rule with
    | style b | nest b =>
      exact styles_of_separable hr h (ihr (some (b.reaches r sc))) hs.2
    | group => exact ⟨hs.1,ihr sc h hs.2⟩
    | statement => exact hs

end Rule
end

/-- Where no element has an unused name, removal leaves what elements get from the rules that are not
inside of a removed one. It gives them nothing else, and takes nothing from them if the rules inside
of removed ones need those. -/
theorem Rule.matched_removeUnused_eq (hr : r.Lacks unused) (rules : List Rule) :
    matched r (removeUnused unused rules) = matchedOutside r (StyleBlock.isDropped unused) rules ∧
      matched r (removeUnused unused rules) ⊆ matched r rules ∧
        (isSeparable.allSeparable unused rules = true →
          matched r (removeUnused unused rules) = matched r rules) := by
  have heq := matched_removeUnused hr rules
  have hsubset := matchedOutside_subset r (StyleBlock.isDropped unused) rules
  refine ⟨heq, heq ▸ hsubset, ?_⟩
  intro hseparable
  rw [heq]
  refine hsubset.antisymm ?_
  intro p hp
  exact anyStyles_of_allSeparable hr rules none hseparable hp

def loneElement (name : String) : Rendering where
  Element := Unit
  parent _ := none
  previous _ := none
  hasName _ _ := False
  hasClass _ other := other = name
  hasId _ _ := False
  hasAttribute _ _ _ := False
  hasState _ _ _ := False
  hasStateOf _ _ _ := False
  isPseudoElement _ _ _ _ := False
  root _ := False
  applies _ := True

lemma lacks_loneElement {name other : String} (h : other ≠ name) : (loneElement name).Lacks [other] := by
  intro n hn e
  rw [mem_singleton.mp hn]
  exact ⟨h,id⟩

/-- Of `.a{& .b{x:y}}.a,.c{x:y;:not(.a)>&{z:w}}` without `a` the first rule is removed, with the rule
inside of it, and no element loses a declaration. -/
theorem Rule.matched_removeUnused_eq_descendant : ∃ sheet, StyleSheet.parse
        ".a\x7b& .b\x7bx:y\x7d\x7d.a,.c\x7bx:y;:not(.a)>&\x7bz:w\x7d\x7d" {} = .ok sheet ∧
      sheet.rules.length = 2 ∧ (removeUnused ["a"] sheet.rules).length = 1 ∧
        ∃ r : Rendering, r.Lacks ["a"] ∧
          matched r (removeUnused ["a"] sheet.rules) = matched r sheet.rules := by
  obtain ⟨sheet, hparse, hcheck⟩ := Rule.ok_of_any
    (x := StyleSheet.parse ".a\x7b& .b\x7bx:y\x7d\x7d.a,.c\x7bx:y;:not(.a)>&\x7bz:w\x7d\x7d" {})
    (p := fun sheet => sheet.rules.length == 2 && (removeUnused ["a"] sheet.rules).length == 1 &&
        isSeparable.allSeparable ["a"] sheet.rules)
    (by decide +kernel)
  simp only [Bool.and_eq_true, beq_iff_eq] at hcheck
  obtain ⟨⟨hbefore, hafter⟩, hseparable⟩ := hcheck
  have hlacks : (loneElement "c").Lacks ["a"] := lacks_loneElement (by decide)
  refine ⟨sheet, hparse, hbefore, hafter, loneElement "c", hlacks, ?_⟩
  exact (Rule.matched_removeUnused_eq hlacks sheet.rules).2.2 hseparable

def Rule.nestedPair? : List Rule → Option (StyleBlock × StyleBlock)
  | [.style b [.style inner _]] => some (b,inner)
  | _ => none

lemma Rule.eq_of_nestedPair? {rs : List Rule} {b inner : StyleBlock} (h : nestedPair? rs = some (b,inner)) :
    ∃ innermost, rs = [.style b [.style inner innermost]] := by
  unfold nestedPair? at h
  split at h
  · cases h
    exact ⟨_,rfl⟩
  · cases h

/-- Of `.a{:is(&,.b){x:y}}` without `a` nothing is left, and an element of class `b` loses its
declaration. -/
theorem Rule.matched_removeUnused_alternative :
    ∃ sheet, StyleSheet.parse ".a\x7b:is(&,.b)\x7bx:y\x7d\x7d" {} = .ok sheet ∧
      ∃ r : Rendering, r.Lacks ["a"] ∧ (matched r sheet.rules).Nonempty ∧
        matched r (removeUnused ["a"] sheet.rules) = ∅ := by
  have hcheck : (StyleSheet.parse ".a\x7b:is(&,.b)\x7bx:y\x7d\x7d" {}).toOption.any (fun sheet =>
      (removeUnused ["a"] sheet.rules).isEmpty && (nestedPair? sheet.rules).any fun blocks =>
          !blocks.2.declarations.isEmpty && decide (blocks.2.selectors =
            [[.pseudoClassOf "is" [[.nesting], [.className "b"]]]])) = true := by
    decide +kernel
  obtain ⟨sheet, hparse, hcheck⟩ := ok_of_any hcheck
  simp only [Bool.and_eq_true, List.isEmpty_iff, Option.any_eq_true, Bool.not_eq_true',
    decide_eq_true_eq] at hcheck
  obtain ⟨hafter, ⟨b, inner⟩, hpair, hsome, hselectors⟩ := hcheck
  obtain ⟨innermost, hrules⟩ := eq_of_nestedPair? hpair
  obtain ⟨d, hd⟩ := List.exists_mem_of_ne_nil _ (List.isEmpty_eq_false_iff.mp hsome)
  have hselects : ∀ scope, inner.reaches (loneElement "b") (some scope) () := by
    intro scope
    refine ⟨_, by rw [hselectors]; exact List.mem_singleton_self _, ?_⟩
    rw [Selector.reaches_eq_selectsIn (by decide), Selector.selectsIn, if_neg (by decide),
      if_pos (by decide)]
    exact ⟨trivial, Or.inr (Or.inl ⟨trivial, rfl⟩)⟩
  refine ⟨sheet, hparse, loneElement "b", lacks_loneElement (by decide), ⟨((), d), ?_⟩, ?_⟩
  · rw [hrules]
    exact Or.inl ⟨rfl, Or.inr (Or.inl ⟨rfl, Or.inl ⟨hselects _, hd⟩⟩)⟩
  · rw [hafter]
    rfl

end Css
