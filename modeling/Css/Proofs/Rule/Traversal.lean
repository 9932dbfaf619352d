import Css.Transform.Unused
import Mathlib.Logic.Basic

/-!
# Traversals without effects

A traversal that changes the declarations of style rules, the conditions of groups and the contents of
statements.
-/
namespace Css
open Rule.removeUnused? List

def Statement.keyframesName? : Statement → Option String
  | keyframes name .. => some name
  | _ => none

def Statement.mapDeclarations (f : List Declaration → List Declaration) : Statement → Statement
  | keyframes name quoted vendor frames =>
    keyframes name quoted vendor <| frames.map fun frame => { frame with declarations := f frame.declarations }
  | property name declarations => property name (f declarations)
  | fontFace declarations => fontFace (f declarations)
  | page selectors declarations => page selectors (f declarations)
  | s => s

lemma Statement.run_traverseDeclarations (f : List Declaration → List Declaration) (s : Statement) :
    Id.run (s.traverseDeclarations fun ds => pure (f ds)) = s.mapDeclarations f := by
  cases s with
  | keyframes name quoted vendor frames =>
    exact congrArg (keyframes name quoted vendor) idRun_mapM
  | _ => rfl

namespace Rule

def visit (v : Visitor Id) : Rule → Rule
  | style block rules => style (v.block block).run (visitAll v rules)
  | nest block rules => nest (v.block block).run (visitAll v rules)
  | group g rules location => group (v.group g location).run (visitAll v rules) location
  | statement s location => statement (v.statement s location).run location
where
  visitAll (v : Visitor Id) : List Rule → List Rule
    | [] => []
    | r :: rs => r.visit v :: visitAll v rs

open visit

lemma traverseAll_eq_visitAll (v : Visitor Id) (rules : List Rule) :
    Id.run (traverseList v rules) = visitAll v rules := by
  induction rules using induct with
  | nil => rfl
  | cons r rs hr ih =>
    refine congrArg₂ cons ?_ ih
    cases r with
    | style block => exact congrArg (style (v.block block)) hr
    | nest block => exact congrArg (nest (v.block block)) hr
    | group g _ loc => exact congrArg (group (v.group g loc) · loc) hr
    | statement => rfl

def Visitor.orSame {ε : Type} (v : Visitor (Except ε)) : Visitor Id where
  block b := (v.block b).toOption.getD b
  group g location := (v.group g location).toOption.getD g
  statement s location := (v.statement s location).toOption.getD s

section
variable {ε : Type} {α : Type} {x : Except ε α}

lemma ok_of_any {p : α → Bool} (h : x.toOption.any p) : ∃ a, x = .ok a ∧ p a := by
  cases x with
  | error e => cases h
  | ok a => exact ⟨a,rfl,h⟩

lemma getD_of_ok {a : α} (h : x = .ok a) (b : α) : x.toOption.getD b = a := by
  rw [h]; rfl

variable {v : Visitor (Except ε)}

lemma visitAll_of_traverseList (rules : List Rule) {rules' : List Rule}
    (h : traverseList v rules = .ok rules') : visitAll v.orSame rules = rules' := by
  induction rules using induct generalizing rules' with
  | nil =>
    cases h
    rfl
  | cons r rs ihr ih =>
    obtain ⟨r',rs',hr,hrs,rfl⟩ := ok_of_bind₂_ok h
    refine congrArg₂ cons ?_ (ih hrs)
    cases r with
    | style b rs =>
      obtain ⟨b',rs',hb,hrs,rfl⟩ := ok_of_bind₂_ok hr
      exact congrArg₂ style (getD_of_ok hb b) (ihr hrs)
    | nest b rs =>
      obtain ⟨b',rs',hb,hrs,rfl⟩ := ok_of_bind₂_ok hr
      exact congrArg₂ nest (getD_of_ok hb b) (ihr hrs)
    | group g rs loc =>
      obtain ⟨g',rs',hg,hrs,rfl⟩ := ok_of_bind₂_ok hr
      exact congrArg₂ (group · · loc) (getD_of_ok hg g) (ihr hrs)
    | statement s loc =>
      obtain ⟨s',hs,h⟩ := ok_of_bind_ok hr
      cases h
      exact congrArg (statement · loc) (getD_of_ok hs s)

end

/-- The traversal changes the declarations of style rules by `f`, and neither leaves out all of them
nor renames keyframes. -/
structure Visitor.Keeps (v : Visitor Id) (f : List Declaration → List Declaration) : Prop where
  block : ∀ b, (v.block b).run = { b with declarations := f b.declarations }
  isEmpty : ∀ declarations, (f declarations).isEmpty = declarations.isEmpty
  keyframesName : ∀ s location, (v.statement s location).run.keyframesName? = s.keyframesName?

section
variable {unused : List String} {v : Visitor Id} {f : List Declaration → List Declaration}

lemma removeUnused?_statement (s : Statement) (loc : Location) : (statement s loc).removeUnused? unused =
      if s.keyframesName?.any unused.contains then none else some (statement s loc) := by
  cases s <;> rfl

lemma ite_none_ite {α : Type} (a b : Bool) (x : Option α) :
    (if a then none else if b then none else x) = bif a || b then none else x := by
  cases a <;> cases b <;> rfl

lemma removeUnused?_style (b : StyleBlock) (rs : List Rule) : (style b rs).removeUnused? unused =
      bif (keepSelectors unused b).selectors.isEmpty ||
        (isEmptied rs (removeFrom unused rs) && b.declarations.isEmpty && b.composes.isEmpty) then none
      else some (style (keepSelectors unused b) (removeFrom unused rs)) := by
  rw [removeUnused?]
  exact ite_none_ite ..

lemma removeUnused?_nest (b : StyleBlock) (rs : List Rule) : (nest b rs).removeUnused? unused =
      bif (keepSelectors unused b).selectors.isEmpty ||
        (isEmptied rs (removeFrom unused rs) && b.declarations.isEmpty) then none
      else some (nest (keepSelectors unused b) (removeFrom unused rs)) := by
  rw [removeUnused?]
  exact ite_none_ite ..

lemma of_cond_eq_some {α : Type} {gone : Bool} {x y : α}
    (h : (bif gone then none else some x) = some y) : gone = false ∧ x = y := by
  cases gone with
  | true => cases h
  | false => exact ⟨rfl,Option.some.inj h⟩

lemma removeUnused?_group (g : Group) (rs : List Rule) (loc : Location) :
    (group g rs loc).removeUnused? unused = bif isEmptied rs (removeFrom unused rs) then none
      else some (group g (removeFrom unused rs) loc) := by
  rw [removeUnused?]
  exact (Bool.cond_eq_ite ..).symm

lemma removeFrom_cons (r : Rule) (rs : List Rule) : removeFrom unused (r :: rs) =
      (r.removeUnused? unused).toList ++ removeFrom unused rs := by
  rw [removeFrom]
  cases r.removeUnused? unused <;> rfl

lemma removeFrom_append (rs ss : List Rule) : removeFrom unused (rs ++ ss) =
      removeFrom unused rs ++ removeFrom unused ss := by
  induction rs with
  | nil => rfl
  | cons r rs ih => rw [cons_append,removeFrom_cons,removeFrom_cons,ih,append_assoc]

lemma isEmptied_visitAll (pre post : List Rule) : isEmptied (visitAll v pre) (visitAll v post) = isEmptied pre post := by
  cases pre <;> cases post <;> rfl

/-- To remove what is unused and to visit what is left is to visit all and to remove then. -/
lemma removeFrom_visitAll (hv : v.Keeps f) (rules : List Rule) : removeFrom unused (visitAll v rules) =
      visitAll v (removeFrom unused rules) := by
  induction rules using induct with
  | nil => rfl
  | cons r rs hr ih =>
    have h : (r.visit v).removeUnused? unused = (r.removeUnused? unused).map (visit v) := by
      cases r with
      | style =>
        rw [visit,hv.block,removeUnused?_style,removeUnused?_style,hr,isEmptied_visitAll,
          Bool.apply_cond (Option.map _),Option.map_some,visit,hv.block]
        simp only [hv.isEmpty]
        rfl
      | nest =>
        rw [visit,hv.block,removeUnused?_nest,removeUnused?_nest,hr,isEmptied_visitAll,
          Bool.apply_cond (Option.map _),Option.map_some,visit,hv.block]
        simp only [hv.isEmpty]
        rfl
      | group =>
        rw [visit,removeUnused?_group,removeUnused?_group,hr,isEmptied_visitAll,
          Bool.apply_cond (Option.map _),Option.map_some,visit]
        rfl
      | statement =>
        rw [visit,removeUnused?_statement,removeUnused?_statement,hv.keyframesName]
        split <;> rfl
    rw [visitAll,removeFrom,removeFrom,h,ih]
    cases r.removeUnused? unused <;> rfl

end

section
variable (f : List Declaration → List Declaration)

abbrev declarationChange : Visitor Id := declarationVisitor fun declarations => pure (f declarations)

lemma run_declarationChange (s : Statement) (loc : Location) :
    ((declarationChange f).statement s loc).run = s.mapDeclarations f :=
  s.run_traverseDeclarations f

lemma keeps_declarationChange (h : ∀ ds, (f ds).isEmpty = ds.isEmpty) : (declarationChange f).Keeps f where
  block _ := rfl
  isEmpty := h
  keyframesName s location := by
    rw [run_declarationChange]
    cases s <;> rfl

end
end Rule
end Css
