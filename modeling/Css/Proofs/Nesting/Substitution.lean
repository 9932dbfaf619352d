import Css.Transform.Nesting
import Mathlib.Logic.Relation

/-!
# A selector in the place of a reference

To put a selector in the place of each reference to the enclosing rule is to let the enclosing rule
select what that selector selects. Each part of a selector takes the elements that are selected before it to
those that are selected after it.
-/
namespace Css
open Part.anywhere

/-- The elements of a document, how they stand to each other, and the tests that they pass. -/
structure Document where
  Element : Type
  parent : Element → Option Element
  previous : Element → Option Element
  hasName : Element → String → Prop
  hasClass : Element → String → Prop
  hasId : Element → String → Prop
  hasAttribute : Element → String → Option AttributeTest → Prop

def Document.leads (doc : Document) (c : Combinator) (x y : doc.Element) : Prop := match c with
  | .descendant => Relation.TransGen (fun x y => doc.parent y = some x) x y
  | .child => doc.parent y = some x
  | .nextSibling => doc.previous y = some x
  | .laterSibling => Relation.TransGen (fun x y => doc.previous y = some x) x y

/-- What is selected after a part, if `start` is selected before it and `scope` by the enclosing rule.
A part of another kind selects nothing. -/
def Part.select (doc : Document) (sc start : doc.Element → Prop) : Part → doc.Element → Prop
  | combinator c, y => ∃ x, doc.leads c x y ∧ start x
  | universal, y => start y
  | element name, y => start y ∧ doc.hasName y name
  | className name, y => start y ∧ doc.hasClass y name
  | idName name, y => start y ∧ doc.hasId y name
  | attr name test, y => start y ∧ doc.hasAttribute y name test
  | pseudoClassOf name selectors, y =>
    if name = "not" then start y ∧ ¬selectAny sc selectors y
    else if name = "is" ∨ name = "where" then start y ∧ selectAny sc selectors y
    else False
  | nesting, y => start y ∧ sc y
  | _, _ => False
where
  selectList (sc start : doc.Element → Prop) : List Part → doc.Element → Prop
    | [], y => start y
    | p :: ps, y => selectList sc (p.select doc sc start) ps y
  selectAny (sc : doc.Element → Prop) : List (List Part) → doc.Element → Prop
    | [], _ => False
    | s :: ss, y => selectList sc (fun _ => True) s y ∨ selectAny sc ss y

def Part.isPlain : Part → Bool
  | combinator _ | universal | element _ | className _ | idName _ | attr .. | nesting => true
  | pseudoClassOf name selectors => ["not","is","where"].contains name && allPlain selectors
  | _ => false
where
  listPlain : List Part → Bool
    | [] => true
    | p :: ps => p.isPlain && listPlain ps
  allPlain : List (List Part) → Bool
    | [] => true
    | s :: ss => listPlain s && allPlain ss

namespace Part
open select
variable {doc : Document} (sc start : doc.Element → Prop)

lemma selectList_append (ps qs : List Part) : selectList doc sc start (ps ++ qs) =
      selectList doc sc (selectList doc sc start ps) qs := by
  induction ps generalizing start with
  | nil => rfl
  | cons p ps ih => exact ih (p.select doc sc start)

lemma select_of_not_combinator {p : Part} (hp : p.isCombinator = false) :
    p.select doc sc start = fun y => start y ∧ p.select doc sc (fun _ => True) y := by
  funext y
  cases p with
  | combinator c => cases hp
  | pseudoClassOf name sels =>
    by_cases hn : name = "not"
    · simp [select,hn]
    · by_cases his : name = "is" ∨ name = "where" <;> simp [select,hn,his]
  | _ => simp [select]

lemma selectList_of_compound {ps : List Part} (hps : ∀ p ∈ ps, p.isCombinator = false) :
    selectList doc sc start ps = fun y => start y ∧ selectList doc sc (fun _ => True) ps y := by
  induction ps generalizing start with
  | nil =>
    funext y
    simp [selectList]
  | cons p ps ih =>
    have hp := hps p List.mem_cons_self
    have ih := fun start => ih start fun q hq => hps q (List.mem_cons_of_mem p hq)
    funext y
    simp only [selectList]
    rw [ih (p.select doc sc start),ih (p.select doc sc fun _ => True),select_of_not_combinator sc start hp]
    exact propext and_assoc

lemma anywhereIn_eq_any (f : Part → Bool) (ps : List Part) : anywhereIn f ps = ps.any (anywhere f) := by
  induction ps with
  | nil => rfl
  | cons p ps ih => rw [anywhereIn,ih,List.any_cons]

lemma select_congr_scope (sc scope' : doc.Element → Prop) : (∀ ps, anywhereIn isNesting ps = false → ∀ start,
      selectList doc sc start ps = selectList doc scope' start ps) ∧
    ∀ ss, anywhereInAny isNesting ss = false → selectAny doc sc ss = selectAny doc scope' ss := by
  refine induct (fun _ _ => rfl) ?_ (fun _ => rfl) ?_
  · intro p ps hp ih h start
    rw [anywhereIn,anywhere_eq,Bool.or_eq_false_iff,Bool.or_eq_false_iff] at h
    have hs : p.select doc sc start = p.select doc scope' start := by
      cases p with
      | pseudoClassOf name ss =>
        funext y
        simp only [select,hp h.1.2]
      | nesting => cases h.1.1
      | _ => rfl
    funext y
    simp only [selectList]
    rw [hs,ih h.2]
  · intro s ss hs ih h
    obtain ⟨h,hss⟩ := Bool.or_eq_false_iff.mp h
    funext y
    simp only [selectAny]
    rw [hs h,ih hss]

end Part

open Part.select Part.resolve Part.isPlain Selector Css.Part List

/-- A selector without a reference to the enclosing rule selects the same in every rule. -/
lemma Selector.selectList_of_not_hasNesting {doc : Document} {s : Selector}
    (h : s.hasNesting = false) (sc scope' start : doc.Element → Prop) :
    select.selectList doc sc start s = select.selectList doc scope' start s := by
  refine (select_congr_scope sc scope').1 s ?_ start
  rw [anywhereIn_eq_any]
  exact h

def Selector.selects (doc : Document) (s : Selector) : doc.Element → Prop :=
  selectList doc (fun _ => False) (fun _ => True) s

namespace Part
variable {doc : Document} {parent : Selector}

/-- A selector that is spliced in is a test, as the reference is. It may only start with other
elements if it stands at the front. -/
lemma selectList_splice (hp : parent.hasNesting = false)
    (sc : doc.Element → Prop) {start : doc.Element → Prop} {pre : Option Part}
    (hst : pre = none → start = fun _ => True) :
    selectList doc sc start (parent.splice pre) = fun y => start y ∧ parent.selects doc y := by
  have hs : selectList doc sc (fun _ => True) parent = parent.selects doc :=
    Selector.selectList_of_not_hasNesting hp _ _ _
  cases pre with
  | none =>
    rw [hst rfl]
    simp only [true_and]
    exact hs
  | some p =>
    unfold Selector.splice
    simp only
    split
    · rename_i hr
      have hc : ∀ q ∈ parent, q.isCombinator = false := by
        intro q hq
        simp only [Selector.isCompound,Bool.and_eq_true,Bool.not_eq_true',List.any_eq_false] at hr
        simpa using hr.1 q hq
      rw [selectList_of_compound sc start hc,hs]
    · funext y
      simp [selectList,select,selectAny,hs]

lemma select_resolve (hp : parent.hasNesting = false) (sc : doc.Element → Prop) :
    (∀ ps start pre, (pre = none → start = fun _ => True) →
      selectList doc sc start (resolveList parent pre ps) = selectList doc (parent.selects doc) start ps) ∧
    ∀ ss, selectAny doc sc (resolveInner parent ss) = selectAny doc (parent.selects doc) ss := by
  refine induct (fun _ _ _ => rfl) ?_ rfl ?_
  · intro p ps hi ih start pre hs
    have h : selectList doc sc start (p.resolve parent pre) = p.select doc (parent.selects doc) start := by
      cases p with
      | nesting => exact selectList_splice hp sc hs
      | pseudoClassOf name sels =>
        funext y
        simp only [resolve,selectList,select,hi]
      | _ => rfl
    rw [resolveList,selectList_append,h]
    exact ih _ (some p) fun h => by cases h
  · intro s ss hs ih
    have h : selectList doc sc (fun _ => True) (if hasNesting s then resolveList parent none s else s) =
          selectList doc (parent.selects doc) (fun _ => True) s := by
      split
      · exact hs _ none fun _ => rfl
      · rename_i hn
        exact selectList_of_not_hasNesting (by simpa using hn) _ _ _
    funext y
    simp only [resolveInner,selectAny,h,ih]

/-- Whether a reference stands in a selector that belongs to no file: it is not replaced. -/
def keepsReference : Part → Bool
  | pseudoClassOf _ selectors => anyKeeps selectors
  | global selector => anywhereIn isNesting selector
  | _ => false
where
  listKeeps : List Part → Bool
    | [] => false
    | p :: ps => p.keepsReference || listKeeps ps
  anyKeeps : List (List Part) → Bool
    | [] => false
    | s :: ss => listKeeps s || anyKeeps ss

open keepsReference

lemma listKeeps_of_listPlain : (∀ ps, listPlain ps → listKeeps ps = false) ∧ ∀ ss, allPlain ss → anyKeeps ss = false := by
  refine induct (fun _ => rfl) ?_ (fun _ => rfl) ?_
  · intro p ps hi ih h
    obtain ⟨hp,hps⟩ := Bool.and_eq_true_iff.mp h
    rw [listKeeps,ih hps,Bool.or_false]
    cases p with
    | pseudoClassOf => exact hi (Bool.and_eq_true_iff.mp hp).2
    | global => cases hp
    | _ => rfl
  · intro s ss hs ih h
    obtain ⟨h,hss⟩ := Bool.and_eq_true_iff.mp h
    rw [anyKeeps,hs h,ih hss]; rfl

/-- Whether the names of the enclosing rule come into the part in the place of a reference to it. A
selector that belongs to no file takes no names. -/
def carries : Part → Bool
  | nesting => true
  | pseudoClassOf _ selectors => anyCarries selectors
  | _ => false
where
  listCarries : List Part → Bool
    | [] => false
    | p :: ps => p.carries || listCarries ps
  anyCarries : List (List Part) → Bool
    | [] => false
    | s :: ss => listCarries s || anyCarries ss

open carries

lemma anywhereIn_eq_hasNesting (s : Selector) : anywhereIn isNesting s = s.hasNesting := anywhereIn_eq_any isNesting s

lemma anywhere_nesting : (∀ ps, anywhereIn isNesting ps = (listKeeps ps || listCarries ps)) ∧
    ∀ ss, anywhereInAny isNesting ss = (anyKeeps ss || anyCarries ss) := by
  refine induct rfl ?_ rfl ?_
  · intro p ps hi ih
    have h : p.anywhere isNesting = (p.keepsReference || p.carries) := by
      cases p with
      | pseudoClassOf => exact hi
      | global => exact (Bool.or_false _).symm
      | _ => rfl
    rw [anywhereIn,h,ih,listKeeps,listCarries]
    ac_rfl
  · intro s ss hs ih
    rw [anywhereInAny,hs,ih,anyKeeps,anyCarries]
    ac_rfl

lemma keeps_carries_of_not_hasNesting {s : Selector} (h : s.hasNesting = false) :
    listKeeps s = false ∧ listCarries s = false := by
  rwa [← anywhereIn_eq_hasNesting,anywhere_nesting.1,Bool.or_eq_false_iff] at h

lemma anywhereIn_splice (parent : Selector) (pre : Option Part) :
    anywhereIn isNesting (parent.splice pre) = parent.hasNesting := by
  rw [← anywhereIn_eq_hasNesting]
  unfold splice
  split
  · rfl
  · split
    · rfl
    · simp [anywhereIn,anywhere,anywhereInAny,isNesting]

/-- A reference is left where one is kept, and where the selector in its place has one. -/
lemma anywhere_resolve (parent : Selector) : (∀ ps pre, anywhereIn isNesting (resolveList parent pre ps) =
      (listKeeps ps || (listCarries ps && parent.hasNesting))) ∧
    ∀ ss, anywhereInAny isNesting (resolveInner parent ss) = (anyKeeps ss || (anyCarries ss && parent.hasNesting)) := by
  refine induct (fun _ => rfl) ?_ rfl ?_
  · intro p ps hi ih pre
    have h : anywhereIn isNesting (p.resolve parent pre) = (p.keepsReference || (p.carries && parent.hasNesting)) := by
      cases p with
      | nesting => exact anywhereIn_splice parent pre
      | pseudoClassOf => exact (Bool.or_false _).trans hi
      | global => exact (Bool.or_false _).trans (Bool.or_false _).symm
      | _ => rfl
    rw [resolveList,anywhereIn_eq_any,any_append,← anywhereIn_eq_any,← anywhereIn_eq_any,h,ih,listKeeps,listCarries,
      Bool.and_or_distrib_right]
    ac_rfl
  · intro s ss hs ih
    have h : anywhereIn isNesting (if hasNesting s then resolveList parent none s else s) =
          (listKeeps s || (listCarries s && parent.hasNesting)) := by
      cases hn : hasNesting s with
      | true => exact hs none
      | false =>
        obtain ⟨hk,hc⟩ := keeps_carries_of_not_hasNesting hn
        rw [if_neg Bool.false_ne_true,anywhereIn_eq_hasNesting,hn,hk,hc]; rfl
    rw [resolveInner,anywhereInAny,h,ih,anyKeeps,anyCarries,Bool.and_or_distrib_right]
    ac_rfl

/-- Whether to select with several selectors in the place of the reference is to select with one of
them: there is one reference at most, and it stands under no negation. -/
def distributes : Part → Bool
  | pseudoClassOf name selectors =>
    if name = "is" ∨ name = "where" then distributesAll selectors
    else !anywhere.anywhereInAny isNesting selectors
  | _ => true
where
  distributesList : List Part → Bool
    | [] => true
    | p :: ps =>
      p.distributes &&
        if p.anywhere isNesting then !anywhere.anywhereIn isNesting ps else distributesList ps
  distributesAll : List (List Part) → Bool
    | [] => true
    | s :: ss => distributesList s && distributesAll ss

open distributes
variable {ι : Type}

lemma select_exists (sc : doc.Element → Prop) (is : List ι) (start : ι → doc.Element → Prop) (p : Part) :
    p.select doc sc (fun y => ∃ i ∈ is, start i y) = fun y => ∃ i ∈ is, p.select doc sc (start i) y := by
  funext y
  apply propext
  cases hp : p.isCombinator with
  | false =>
    rw [select_of_not_combinator sc _ hp]
    constructor
    · intro hsm
      obtain ⟨⟨i,hi,hs⟩,ht⟩ := hsm
      refine ⟨i,hi,?_⟩
      rw [select_of_not_combinator sc _ hp]
      exact ⟨hs,ht⟩
    · intro hsm
      obtain ⟨i,hi,h⟩ := hsm
      rw [select_of_not_combinator sc _ hp] at h
      exact ⟨⟨i,hi,h.1⟩,h.2⟩
  | true =>
    cases p with
    | combinator c =>
      constructor
      · intro hsm
        obtain ⟨x,hx,i,hi,hs⟩ := hsm
        exact ⟨i,hi,x,hx,hs⟩
      · intro hsm
        obtain ⟨i,hi,x,hx,hs⟩ := hsm
        exact ⟨x,hx,i,hi,hs⟩
    | _ => cases hp

lemma selectList_exists (sc : doc.Element → Prop) (is : List ι) (start : ι → doc.Element → Prop) (ps : List Part) :
    selectList doc sc (fun y => ∃ i ∈ is, start i y) ps = fun y => ∃ i ∈ is, selectList doc sc (start i) ps y := by
  induction ps generalizing start with
  | nil => rfl
  | cons p ps ih =>
    funext y
    simp only [selectList]
    rw [select_exists,ih]

lemma eq_exists_of_forall_eq {is : List ι} (his : is ≠ []) {f : doc.Element → Prop}
    {g : ι → doc.Element → Prop} (h : ∀ i, g i = f) : f = fun y => ∃ i ∈ is, g i y := by
  obtain ⟨i,hi⟩ := exists_mem_of_ne_nil is his
  funext y
  apply propext
  constructor
  · intro hy
    exact ⟨i,hi,by rw [h i]; exact hy⟩
  · intro hs
    obtain ⟨j,_,hy⟩ := hs
    rw [← h j]
    exact hy

lemma select_of_distributes {scopes : List (doc.Element → Prop)} (hne : scopes ≠ []) :
    (∀ ps, distributesList ps → ∀ start, selectList doc (fun y => ∃ sc ∈ scopes, sc y) start ps =
        fun y => ∃ sc ∈ scopes, selectList doc sc start ps y) ∧
    ∀ ss, distributesAll ss → selectAny doc (fun y => ∃ sc ∈ scopes, sc y) ss =
        fun y => ∃ sc ∈ scopes, selectAny doc sc ss y := by
  refine induct (fun _ _ => eq_exists_of_forall_eq hne fun _ => rfl) ?_
    (fun _ => eq_exists_of_forall_eq hne fun _ => rfl) ?_
  · intro p ps hi ih h start
    simp only [distributesList,Bool.and_eq_true] at h
    obtain ⟨hp,hps⟩ := h
    have hc (hn : p.anywhere isNesting = false) (sc scope' : doc.Element → Prop) :
        p.select doc sc start = p.select doc scope' start :=
      (select_congr_scope sc scope').1 [p] (by rw [anywhereIn,hn]; rfl) start
    funext y
    simp only [selectList]
    split at hps
    · -- The reference is in `p`, and the parts behind it depend on the choice by their start only.
      have hs : p.select doc (fun y => ∃ sc ∈ scopes, sc y) start = fun y => ∃ sc ∈ scopes, p.select doc sc start y := by
        cases p with
        | pseudoClassOf name sels =>
          by_cases his : name = "is" ∨ name = "where"
          · have hn : name ≠ "not" := by rcases his with rfl | rfl <;> decide
            simp only [distributes,his,if_true] at hp
            funext y
            simp only [select,hn,his,if_false,if_true,hi hp,and_left_comm,exists_and_left]
          · simp only [distributes,his,if_false,Bool.not_eq_true'] at hp
            exact eq_exists_of_forall_eq hne fun sc => hc hp sc _
        | nesting =>
          funext y
          simp only [select,and_left_comm,exists_and_left]
        | _ => exact eq_exists_of_forall_eq hne fun _ => rfl
      simp only [Bool.not_eq_true'] at hps
      rw [hs,selectList_exists]
      apply propext
      apply exists_congr
      intro sc
      rw [(select_congr_scope _ sc).1 ps hps]
    · rename_i hn
      rw [ih hps]
      apply propext
      apply exists_congr
      intro sc
      rw [hc (by simpa using hn) _ sc]
  · intro s ss hs ih h
    simp only [distributesAll,Bool.and_eq_true] at h
    funext y
    simp only [selectAny,hs h.1,ih h.2,← exists_or,← and_or_left]

end Part

namespace Selector
variable {doc : Document}

def isRelative (s : Selector) : Bool := s.head?.any Part.isCombinator

def isPlain (s : Selector) : Bool := listPlain s

/-- Whether the selector refers to the enclosing rule once at most, and under no negation. -/
def distributes (s : Selector) : Bool := Part.distributes.distributesList s

/-- What a selector selects inside of a rule that selects `scope`: relative to it if it starts with a
combinator, and below it if it does not refer to it. -/
def selectsIn (doc : Document) (sc : doc.Element → Prop) (s : Selector) : doc.Element → Prop :=
  if s.isRelative then selectList doc sc sc s
  else if s.hasNesting then selectList doc sc (fun _ => True) s
  else selectList doc sc sc (.combinator .descendant :: s)

/-- A resolved selector selects what the nested one selects inside of the enclosing one. -/
lemma selects_resolve {parent child : Selector} (hp : parent.hasNesting = false)
    (hc : child.hasNesting) (hr : child.isRelative = false) :
    (resolve parent child).selects doc = child.selectsIn doc (parent.selects doc) := by
  unfold resolve selects selectsIn
  rw [if_pos hc,if_neg (by simp [hr]),if_pos hc]
  exact (select_resolve hp _).1 child _ none fun _ => rfl

def keepsReference (s : Selector) : Bool := Part.keepsReference.listKeeps s

lemma hasNesting_resolve {parent child : Selector} (hp : parent.hasNesting = false)
    (hc : child.keepsReference = false) : (resolve parent child).hasNesting = false := by
  unfold resolve
  split
  · rw [← Part.anywhereIn_eq_hasNesting,(Part.anywhere_resolve parent).1,hp,Bool.and_false,Bool.or_false]
    exact hc
  · rename_i hn
    have hn : child.hasNesting = false := by simpa using hn
    simp only [hasNesting,anywhere] at hp hn ⊢
    rw [any_append,any_cons,hp,hn]; rfl

/-- With one reference, what is selected inside of several scopes is selected inside of one. -/
lemma selectsIn_of_distributes {scopes : List (doc.Element → Prop)} (hne : scopes ≠ [])
    {s : Selector} (hs : s.hasNesting) (hr : s.isRelative = false)
    (hd : s.distributes) :
    s.selectsIn doc (fun y => ∃ sc ∈ scopes, sc y) = fun y => ∃ sc ∈ scopes, s.selectsIn doc sc y := by
  have hin : ∀ sc, s.selectsIn doc sc = selectList doc sc (fun _ => True) s := by
    intro sc
    unfold selectsIn
    rw [if_neg (by simp [hr]),if_pos hs]
  simp only [hin]
  exact (select_of_distributes hne).1 s hd _

end Selector
end Css
