import Css.Text.Basic

/-!
# Selectors

A selector is the list of its parts in the order in which they are written: simple selectors, and
combinators between groups of them.
-/
namespace Css

inductive Combinator where
  | descendant | child | nextSibling | laterSibling
deriving DecidableEq

inductive AttributeOperator where
  | equals | includes | dashMatch | startsWith | endsWith | contains
deriving DecidableEq

inductive CaseFlag where
  | ignored | respected
deriving DecidableEq

structure AttributeTest where
  operator : AttributeOperator
  value : String
  flag : Option CaseFlag
deriving DecidableEq

inductive Part where
  | combinator (c : Combinator)
  | universal
  | element (name : String)
  | className (name : String)
  | idName (name : String)
  | attr (name : String) (test : Option AttributeTest)
  | pseudoClass (name : String)
  | pseudoClassOf (name : String) (selectors : List (List Part))
  | pseudoClassText (name arguments : String)
  | pseudoElement (name : String)
  | pseudoElementText (name arguments : String)
  | nesting
  | global (selector : List Part)

abbrev Selector := List Part

namespace Part

def same : Part → Part → Bool
  | combinator c, combinator d => c == d
  | universal, universal => true
  | element a, element b => a == b
  | className a, className b => a == b
  | idName a, idName b => a == b
  | attr a s, attr b t => a == b && s == t
  | pseudoClass a, pseudoClass b => a == b
  | pseudoClassOf a xs, pseudoClassOf b ys => a == b && sameLists xs ys
  | pseudoClassText a s, pseudoClassText b t => a == b && s == t
  | pseudoElement a, pseudoElement b => a == b
  | pseudoElementText a s, pseudoElementText b t => a == b && s == t
  | nesting, nesting => true
  | global xs, global ys => sameList xs ys
  | _, _ => false
where
  sameList : List Part → List Part → Bool
    | [], [] => true
    | x :: xs, y :: ys => x.same y && sameList xs ys
    | _, _ => false
  sameLists : List (List Part) → List (List Part) → Bool
    | [], [] => true
    | x :: xs, y :: ys => sameList x y && sameLists xs ys
    | _, _ => false

mutual

theorem eq_of_same : (a b : Part) → a.same b = true → a = b := by
  intro a b h
  cases a <;> cases b <;> simp [same] at h ⊢
  all_goals first
    | exact h
    | exact ⟨h.1,eq_of_sameLists _ _ h.2⟩
    | exact eq_of_sameList _ _ h

theorem eq_of_sameList : (xs ys : List Part) → same.sameList xs ys = true → xs = ys
  | [], [], _ => rfl
  | x :: xs, y :: ys, h => by
    simp [same.sameList] at h
    rw [eq_of_same x y h.1,eq_of_sameList xs ys h.2]
  | [], _ :: _, h => by simp [same.sameList] at h
  | _ :: _, [], h => by simp [same.sameList] at h

theorem eq_of_sameLists : (xs ys : List (List Part)) → same.sameLists xs ys = true → xs = ys
  | [], [], _ => rfl
  | x :: xs, y :: ys, h => by
    simp [same.sameLists] at h
    rw [eq_of_sameList x y h.1,eq_of_sameLists xs ys h.2]
  | [], _ :: _, h => by simp [same.sameLists] at h
  | _ :: _, [], h => by simp [same.sameLists] at h

end

mutual

theorem same_self : (a : Part) → a.same a = true
  | .combinator _ | .universal | .element _ | .className _ | .idName _ | .attr .. => by simp [same]
  | .pseudoClass _ | .pseudoClassText .. | .pseudoElement _ | .pseudoElementText .. => by
    simp [same]
  | .nesting => rfl
  | .pseudoClassOf _ xs => by simp [same,sameLists_self xs]
  | .global xs => by simp [same,sameList_self xs]

theorem sameList_self : (xs : List Part) → same.sameList xs xs = true
  | [] => rfl
  | x :: xs => by simp [same.sameList,same_self x,sameList_self xs]

theorem sameLists_self : (xs : List (List Part)) → same.sameLists xs xs = true
  | [] => rfl
  | x :: xs => by simp [same.sameLists,sameList_self x,sameLists_self xs]

end

instance : DecidableEq Part := fun a b =>
  if h : a.same b = true then isTrue (eq_of_same a b h)
  else isFalse fun heq => h (heq ▸ same_self a)

def isCombinator : Part → Bool
  | combinator _ => true
  | _ => false

def isNesting : Part → Bool
  | nesting => true
  | _ => false

def isVendorPseudo : Part → Bool
  | pseudoClass name => Text.startsWith name "-"
  | pseudoClassOf name _ => Text.startsWith name "-"
  | pseudoClassText name _ => Text.startsWith name "-"
  | pseudoElement name => Text.startsWith name "-"
  | pseudoElementText name _ => Text.startsWith name "-"
  | _ => false

def anywhere (p : Part → Bool) (part : Part) : Bool :=
  p part || match part with
    | pseudoClassOf _ selectors => anywhereInAny p selectors
    | global selector => anywhereIn p selector
    | _ => false
where
  anywhereIn (p : Part → Bool) : List Part → Bool
    | [] => false
    | part :: parts => part.anywhere p || anywhereIn p parts
  anywhereInAny (p : Part → Bool) : List (List Part) → Bool
    | [] => false
    | selector :: selectors => anywhereIn p selector || anywhereInAny p selectors

/-! ## Induction -/

/-- The selectors that a part holds. -/
@[reducible]
def inner : Part → List (List Part)
  | pseudoClassOf _ selectors => selectors
  | global selector => [selector]
  | _ => []

theorem anywhere_eq (f : Part → Bool) (p : Part) :
    p.anywhere f = (f p || anywhere.anywhereInAny f p.inner) := by
  cases p with
  | global s => exact congrArg _ (Bool.or_false _).symm
  | _ => rfl

/-- Properties of selectors and of lists of them that pass from what a part holds to the selectors
that it stands in. -/
structure Ascends (P : List Part → Prop) (Q : List (List Part) → Prop) : Prop where
  nil : P []
  cons : ∀ p ps, Q p.inner → P ps → P (p :: ps)
  none : Q []
  some : ∀ s ss, P s → Q ss → Q (s :: ss)

section

variable {P : List Part → Prop} {Q : List (List Part) → Prop}

mutual

theorem Ascends.inner (h : Ascends P Q) : ∀ p : Part, Q p.inner
  | .pseudoClassOf _ ss => h.all ss
  | .global s => h.some s [] (h.parts s) h.none
  | .combinator _ | .universal | .element _ | .className _ | .idName _ | .attr .. => h.none
  | .pseudoClass _ | .pseudoClassText .. | .pseudoElement _ | .pseudoElementText .. => h.none
  | .nesting => h.none

theorem Ascends.parts (h : Ascends P Q) : ∀ ps, P ps
  | [] => h.nil
  | p :: ps => h.cons p ps (h.inner p) (h.parts ps)

theorem Ascends.all (h : Ascends P Q) : ∀ ss, Q ss
  | [] => h.none
  | s :: ss => h.some s ss (h.parts s) (h.all ss)

end

theorem induct (nil : P []) (cons : ∀ p ps, Q p.inner → P ps → P (p :: ps)) (none : Q [])
    (some : ∀ s ss, P s → Q ss → Q (s :: ss)) : (∀ ps, P ps) ∧ ∀ ss, Q ss :=
  have h : Ascends P Q := ⟨nil,cons,none,some⟩
  ⟨h.parts,h.all⟩

end

def isMatchingName (name : String) : Bool :=
  ["is","where","matches","any","-webkit-any","-moz-any"].contains name

def requiresAny (names : List String) : Part → Bool
  | className name => names.contains name
  | idName name => names.contains name
  | pseudoClassOf name selectors =>
    isMatchingName name && !selectors.isEmpty && allRequire names selectors
  | _ => false
where
  selectorRequires (names : List String) : List Part → Bool
    | [] => false
    | part :: parts => part.requiresAny names || selectorRequires names parts
  allRequire (names : List String) : List (List Part) → Bool
    | [] => true
    | selector :: selectors => selectorRequires names selector && allRequire names selectors

def wideClasses : List String :=
  ["active","checked","disabled","empty","enabled","first-child","first-of-type","focus",
   "hover","last-child","last-of-type","link","only-child","only-of-type","root","target",
   "visited","before","after","first-line","first-letter"]

def wideFunctions : List String :=
  ["nth-child","nth-last-child","nth-of-type","nth-last-of-type","lang"]

def wideElements : List String :=
  ["before","after","first-line","first-letter"]

def isWide : Part → Bool
  | combinator _ | universal | element _ | className _ | idName _ => true
  | attr _ test => test.all fun test => test.flag.isNone
  | pseudoClass name => wideClasses.contains name
  | pseudoClassText name _ => wideFunctions.contains name
  | pseudoClassOf name selectors => name == "not" && allCompound selectors
  | pseudoElement name => wideElements.contains name
  | pseudoElementText .. => false
  | nesting => false
  | global selector => allWide selector
where
  allWide : List Part → Bool
    | [] => true
    | part :: parts => part.isWide && allWide parts
  allCompound : List (List Part) → Bool
    | [] => true
    | selector :: selectors =>
      (!selector.any isCombinator && allWide selector) && allCompound selectors

end Part

namespace Selector

def anywhere (p : Part → Bool) (selector : Selector) : Bool :=
  selector.any (Part.anywhere p)

def hasNesting (selector : Selector) : Bool :=
  selector.anywhere Part.isNesting

def hasVendorPseudo (selector : Selector) : Bool :=
  selector.anywhere Part.isVendorPseudo

def singleClass? : Selector → Option String
  | [.className name] => some name
  | _ => none

def requiresAny (names : List String) (selector : Selector) : Bool :=
  selector.any (Part.requiresAny names)

def isWide (selector : Selector) : Bool :=
  selector.all Part.isWide

def addNew (selectors : List Selector) : List Selector → List Selector
  | [] => selectors
  | s :: more => addNew (if selectors.contains s then selectors else selectors ++ [s]) more

theorem mem_addNew (selectors more : List Selector) (s : Selector) :
    s ∈ addNew selectors more ↔ s ∈ selectors ∨ s ∈ more := by
  induction more generalizing selectors with
  | nil => simp [addNew]
  | cons t more ih =>
    rw [addNew,ih]
    by_cases ht : t ∈ selectors
    · simp only [List.contains_iff_mem,ht,if_true,List.mem_cons]
      constructor
      · rintro (h | h)
        · exact Or.inl h
        · exact Or.inr (Or.inr h)
      · rintro (h | rfl | h)
        · exact Or.inl h
        · exact Or.inl ht
        · exact Or.inr h
    · simp only [List.contains_iff_mem,ht,if_false,List.mem_append,List.mem_cons,
        List.not_mem_nil,or_false,or_assoc]

end Selector

end Css
