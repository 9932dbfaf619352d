import Css.Proofs.Modules.Renaming
import Css.Proofs.Rule.Holds
import Css.Transform.Targets

/-!
# Declarations and media queries of rules

What is asked of all blocks of declarations in rules, or of all of their media queries.
-/
namespace Css
open List Checks

def Statement.blocks : Statement → List (List Declaration)
  | keyframes _ _ _ frames => frames.map Keyframe.declarations
  | property _ declarations | fontFace declarations | page _ declarations => [declarations]
  | _ => []

def Group.media? : Group → Option MediaList
  | media query => some query
  | _ => none

def Statement.media? : Statement → Option MediaList
  | importSheet _ _ _ media => some media
  | _ => none

namespace Checks

def ofBlocks (P : List Declaration → Prop) : Checks where
  block _ b := P b.declarations
  statement _ s := ∀ declarations ∈ s.blocks, P declarations

def ofMedia (P : MediaList → Prop) : Checks where
  group _ g := ∀ media ∈ g.media?, P media
  statement _ s := ∀ media ∈ s.media?, P media

section
variable (P : List Declaration → Prop) [DecidablePred P]

instance (scope : Scope) (b : StyleBlock) : Decidable ((ofBlocks P).block scope b) :=
  inferInstanceAs (Decidable (P b.declarations))

instance (scope : Scope) (g : Group) : Decidable ((ofBlocks P).group scope g) := isTrue trivial

instance (scope : Scope) (s : Statement) : Decidable ((ofBlocks P).statement scope s) :=
  inferInstanceAs (Decidable (∀ declarations ∈ s.blocks, P declarations))

end

lemma uniform_ofBlocks (P : List Declaration → Prop) : (ofBlocks P).Uniform where
  block _ _ _ _ h := h
  group _ _ _ h := h
  statement _ _ _ h := h

lemma uniform_ofMedia (P : MediaList → Prop) : (ofMedia P).Uniform where
  block _ _ _ _ h := h
  group _ _ _ h := h
  statement _ _ _ h := h

end Checks

namespace Statement

lemma blocks_mapDeclarations (f : List Declaration → List Declaration) (s : Statement) :
    (s.mapDeclarations f).blocks = s.blocks.map f := by
  cases s with
  | keyframes name quoted vendor frames => simp [mapDeclarations,blocks,Function.comp_def]
  | _ => rfl

lemma mapDeclarations_eq_self {f : List Declaration → List Declaration} {s : Statement}
    (h : ∀ declarations ∈ s.blocks, f declarations = declarations) : s.mapDeclarations f = s := by
  cases s with
  | keyframes name quoted vendor frames =>
    have hf : frames.map (fun frame => { frame with declarations := f frame.declarations }) = frames := by
      refine (map_congr_left fun frame hfr => ?_).trans (map_id frames)
      rw [h frame.declarations (mem_map_of_mem hfr)]; rfl
    exact congrArg (keyframes name quoted vendor) hf
  | property name declarations =>
    exact congrArg (property name) (h declarations mem_cons_self)
  | fontFace declarations => exact congrArg fontFace (h declarations mem_cons_self)
  | page sels declarations =>
    exact congrArg (page sels) (h declarations mem_cons_self)
  | _ => rfl

lemma blocks_rename (r : Renaming) (s : Statement) :
    (s.rename r).blocks = s.blocks.map (List.map (Declaration.rename r)) := by
  cases s with
  | keyframes name quoted vendor frames => simp [rename,blocks,Function.comp_def]
  | _ => rfl

lemma mem_declarations_iff {s : Statement} {d : Declaration} :
    d ∈ s.declarations ↔ ∃ declarations ∈ s.blocks, d ∈ declarations := by
  cases s <;> simp [declarations,blocks]

end Statement

namespace Rule

structure Visitor.ChangesBlocks (v : Visitor Id) (f : List Declaration → List Declaration) :
    Prop where
  block : ∀ b, (v.block b).run.declarations = f b.declarations
  statement : ∀ s location, (v.statement s location).run.blocks = s.blocks.map f

/-- The change replaces the media queries of each group and import by `f` of them, and defines no
media queries. -/
structure Visitor.ChangesMedia (v : Visitor Id) (f : MediaList → MediaList) : Prop where
  group : ∀ g location, (v.group g location).run.media? = g.media?.map f
  statement : ∀ s location, (v.statement s location).run.media? = s.media?.map f
  definition : ∀ s location name media, (v.statement s location).run = .customMedia name media →
    s = .customMedia name media

lemma Visitor.ChangesBlocks.turns {v : Visitor Id} {f : List Declaration → List Declaration}
    {P Q : List Declaration → Prop} (hv : v.ChangesBlocks f)
    (h : ∀ ds, P ds → Q (f ds)) :
    v.Turns (Checks.ofBlocks P) (Checks.ofBlocks Q) where
  block scope b hb := by
    change Q (v.block b).run.declarations
    rw [hv.block]
    exact h _ hb
  group _ _ _ _ := trivial
  statement scope s location hs ds hm := by
    rw [hv.statement,mem_map] at hm
    obtain ⟨pre,hbf,rfl⟩ := hm
    exact h pre (hs pre hbf)

lemma Visitor.ChangesMedia.turns {v : Visitor Id} {f : MediaList → MediaList}
    {P Q : MediaList → Prop} (hv : v.ChangesMedia f) (h : ∀ media, P media → Q (f media)) :
    v.Turns (ofMedia P) (ofMedia Q) where
  block _ _ _ := trivial
  group scope g location hg media hm := by
    rw [hv.group,Option.mem_def,Option.map_eq_some_iff] at hm
    obtain ⟨pre,hb,rfl⟩ := hm
    exact h pre (hg pre hb)
  statement scope s location hs media hm := by
    rw [hv.statement,Option.mem_def,Option.map_eq_some_iff] at hm
    obtain ⟨pre,hb,rfl⟩ := hm
    exact h pre (hs pre hb)

section
variable (f : List Declaration → List Declaration)

lemma changesBlocks_declarationChange : (declarationChange f).ChangesBlocks f where
  block _ := rfl
  statement s location := by rw [run_declarationChange,Statement.blocks_mapDeclarations]

lemma changesMedia_declarationChange : (declarationChange f).ChangesMedia id where
  group _ _ := Option.map_id.symm ▸ rfl
  statement s location := by
    rw [run_declarationChange]
    cases s <;> rfl
  definition s location name media h := by
    rw [run_declarationChange] at h
    cases s with
    | customMedia => exact h
    | _ => cases h

lemma fixes_declarationChange : (declarationChange f).Fixes
      (ofBlocks fun declarations => f declarations = declarations) where
  block scope b h := by
    change { b with declarations := f b.declarations } = b
    rw [show f b.declarations = b.declarations from h]
  group _ _ _ _ := rfl
  statement scope s location h := (run_declarationChange f s location).trans (Statement.mapDeclarations_eq_self h)

end

lemma changesBlocks_rangeVisitor : rangeVisitor.ChangesBlocks id where
  block _ := rfl
  statement s location := by
    rw [map_id]
    cases s <;> rfl

lemma changesMedia_rangeVisitor : rangeVisitor.ChangesMedia lowerMedia where
  group g location := by cases g <;> rfl
  statement s location := by cases s <;> rfl
  definition s location name media h := by
    cases s with
    | customMedia => exact h
    | _ => cases h

lemma fixes_rangeVisitor : rangeVisitor.Fixes (ofMedia fun media => lowerMedia media = media) where
  block _ _ _ := rfl
  group scope g location h := by
    cases g with
    | media q => exact congrArg Group.media (h q rfl)
    | supports cond => rfl
    | layer name => rfl
  statement scope s location h := by
    cases s with
    | importSheet url layer supports media =>
      exact congrArg (Statement.importSheet url layer supports) (h media rfl)
    | _ => rfl

def renameVisitor (r : Renaming) : Visitor Id where
  block b := b.rename r
  group g _ := g
  statement s _ := s.rename r

section
variable (r : Renaming)

lemma renameAll_eq_visitAll (rs : List Rule) : rename.renameAll r rs = visit.visitAll (renameVisitor r) rs := by
  induction rs using induct with
  | nil => rfl
  | cons rule rs hr ih =>
    refine congrArg₂ List.cons ?_ ih
    cases rule with
    | style b => exact congrArg (style (b.rename r)) hr
    | nest b => exact congrArg (nest (b.rename r)) hr
    | group g _ loc => exact congrArg (group g · loc) hr
    | statement => rfl

lemma changesBlocks_renameVisitor : (renameVisitor r).ChangesBlocks (List.map (Declaration.rename r)) where
  block _ := rfl
  statement s _ := s.blocks_rename r

lemma changesMedia_renameVisitor : (renameVisitor r).ChangesMedia id where
  group _ _ := Option.map_id.symm ▸ rfl
  statement s _ := by cases s <;> rfl
  definition s location name media h := by
    cases s with
    | customMedia => exact h
    | _ => cases h

end
end Rule
end Css
