import Css.Modules.Scope
import Mathlib.Logic.Basic

/-!
# Names of a file and their replacement

The places in rules where names of the file stand, in order, and the rules with other names in these
places.
-/
namespace Css
open List Declaration

inductive Occurrence where
  | className (name : String)
  | definition (name : String)
  | use (name : String)
  | foreign (specifier name : String)
  | composed (groups : List Composes)
  | composer (name : String) (groups : List Composes)
  | misplaced (first : Composes)

def Occurrence.name? : Occurrence → Option String
  | className name | definition name | use name => some name
  | _ => none

structure Renaming where
  own : String → String
  foreign : (specifier name : String) → String
  dashed : Bool

namespace Part

def rename (own : String → String) : Part → Part
  | className name => className (own name)
  | idName name => idName (own name)
  | pseudoClassOf name selectors => pseudoClassOf name (renameLists own selectors)
  | part => part
where
  renameList (own : String → String) : List Part → List Part
    | [] => []
    | p :: ps => p.rename own :: renameList own ps
  renameLists (own : String → String) : List (List Part) → List (List Part)
    | [] => []
    | s :: ss => renameList own s :: renameLists own ss

def occurrences : Part → List Occurrence
  | className name => [.className name]
  | idName name => [.definition name]
  | pseudoClassOf _ selectors => occurrencesInAll selectors
  | _ => []
where
  occurrencesIn : List Part → List Occurrence
    | [] => []
    | p :: ps => p.occurrences ++ occurrencesIn ps
  occurrencesInAll : List (List Part) → List Occurrence
    | [] => []
    | s :: ss => occurrencesIn s ++ occurrencesInAll ss

end Part

namespace Component

def renameReference (r : Renaming) (name : String) : Option NameSource → String
  | none => r.own name
  | some .global => name
  | some (.file specifier) => r.foreign specifier name

/-- Replaces the names of custom properties that are used, at any depth. No source is left. -/
def rename (r : Renaming) : Component → Component
  | reference name source fallback =>
    reference (renameReference r name source) none (renameFallback r fallback)
  | function name xs => function name (renameAll r xs)
  | block bracket xs => block bracket (renameAll r xs)
  | c => c
where
  renameAll (r : Renaming) : List Component → List Component
    | [] => []
    | x :: xs => x.rename r :: renameAll r xs
  renameFallback (r : Renaming) : Option (List Component) → Option (List Component)
    | none => none
    | some xs => some (renameAll r xs)

def referenceOccurrence (name : String) : Option NameSource → List Occurrence
  | none => [.use name]
  | some .global => []
  | some (.file specifier) => [.foreign specifier name]

def occurrences : Component → List Occurrence
  | reference name source fallback =>
    referenceOccurrence name source ++ occurrencesInFallback fallback
  | function _ xs => occurrencesIn xs
  | block _ xs => occurrencesIn xs
  | _ => []
where
  occurrencesIn : List Component → List Occurrence
    | [] => []
    | x :: xs => x.occurrences ++ occurrencesIn xs
  occurrencesInFallback : Option (List Component) → List Occurrence
    | none => []
    | some xs => occurrencesIn xs

def ownOccurrences : Component → List Occurrence
  | reference name source _ => referenceOccurrence name source
  | _ => []

lemma occurrences_eq (c : Component) : c.occurrences = c.ownOccurrences ++ occurrences.occurrencesIn c.inner := by
  cases c with
  | reference name source fallback => cases fallback <;> rfl
  | _ => rfl

def renameAnimation (own : String → String) (keywords : List String) : Component → Component
  | ident name => ident (if keywords.contains (Text.lower name) then name else own name)
  | c => c

def animationUse (keywords : List String) : Component → List Occurrence
  | ident name => if keywords.contains (Text.lower name) then [] else [.use name]
  | _ => []

end Component

namespace Declaration
open Modules.Scoping

def renameAnimations (own : String → String) (property : Property) (value : Value) : Value :=
  match animationKeywords? property with
  | some keywords => value.map (Component.renameAnimation own keywords)
  | none => value

def rename (r : Renaming) (d : Declaration) : Declaration :=
  let value := renameAnimations r.own d.property d.value
  { d with
    property :=
      match d.property with
      | .custom name => .custom (if r.dashed then r.own name else name)
      | p => p
    value := if r.dashed then Component.rename.renameAll r value else value }

def definitions (dashed : Bool) (d : Declaration) : List Occurrence := match d.property with
  | .custom name => if dashed then [.definition name] else []
  | .standard .. => []

def animationUses (d : Declaration) : List Occurrence := match animationKeywords? d.property with
  | some keywords => d.value.flatMap (Component.animationUse keywords)
  | none => []

def occurrences (dashed : Bool) (d : Declaration) : List Occurrence := d.definitions dashed ++ d.animationUses ++
    if dashed then Component.occurrences.occurrencesIn d.value else []

end Declaration

namespace StyleBlock

def rename (r : Renaming) (b : StyleBlock) : StyleBlock := { b with
    selectors := Part.rename.renameLists r.own b.selectors
    declarations := b.declarations.map (Declaration.rename r) }

def composition (b : StyleBlock) : List Occurrence := match b.composes with
  | [] => []
  | first :: _ =>
    match b.selectors.mapM Selector.singleClass? with
    | none => [.misplaced first]
    | some classes => .composed b.composes :: classes.map fun name => .composer name b.composes

def occurrences (dashed : Bool) (b : StyleBlock) : List Occurrence :=
  b.composition ++ Part.occurrences.occurrencesInAll b.selectors ++
    b.declarations.flatMap (Declaration.occurrences dashed)

end StyleBlock

namespace Statement

def rename (r : Renaming) : Statement → Statement
  | keyframes name quoted vendor frames =>
    keyframes (if quoted then name else r.own name) quoted vendor <| frames.map fun frame =>
        { frame with declarations := frame.declarations.map (Declaration.rename r) }
  | property name declarations =>
    property (if r.dashed then r.own name else name) (declarations.map (Declaration.rename r))
  | fontFace declarations => fontFace (declarations.map (Declaration.rename r))
  | page selectors declarations => page selectors (declarations.map (Declaration.rename r))
  | s => s

def occurrences (dashed : Bool) : Statement → List Occurrence
  | keyframes name quoted _ frames =>
    (if quoted then [] else [.definition name]) ++
      frames.flatMap fun frame => frame.declarations.flatMap (Declaration.occurrences dashed)
  | property name declarations =>
    (if dashed then [.definition name] else []) ++ declarations.flatMap (Declaration.occurrences dashed)
  | fontFace declarations => declarations.flatMap (Declaration.occurrences dashed)
  | page _ declarations => declarations.flatMap (Declaration.occurrences dashed)
  | _ => []

end Statement

namespace Rule

def rename (r : Renaming) : Rule → Rule
  | style block rules => style (block.rename r) (renameAll r rules)
  | nest block rules => nest (block.rename r) (renameAll r rules)
  | group g rules location => group g (renameAll r rules) location
  | statement s location => statement (s.rename r) location
where
  renameAll (r : Renaming) : List Rule → List Rule
    | [] => []
    | rule :: rules => rule.rename r :: renameAll r rules

def occurrences (dashed : Bool) : Rule → List Occurrence
  | style block rules => block.occurrences dashed ++ occurrencesIn dashed rules
  | nest block rules => block.occurrences dashed ++ occurrencesIn dashed rules
  | group _ rules _ => occurrencesIn dashed rules
  | statement s _ => s.occurrences dashed
where
  occurrencesIn (dashed : Bool) : List Rule → List Occurrence
    | [] => []
    | rule :: rules => rule.occurrences dashed ++ occurrencesIn dashed rules

end Rule

def AgreeAt (f g : String → String) (places : List Occurrence) : Prop :=
  ∀ o ∈ places, ∀ name, o.name? = some name → f name = g name

section
variable {f g : String → String}

lemma agreeAt_append {p q : List Occurrence} : AgreeAt f g (p ++ q) ↔ AgreeAt f g p ∧ AgreeAt f g q := by
  constructor
  · intro h
    exact ⟨fun o ho => h o (mem_append_left q ho),fun o ho => h o (mem_append_right p ho)⟩
  · rintro ⟨hp,hq⟩ o ho
    rcases mem_append.mp ho with ho | ho
    · exact hp o ho
    · exact hq o ho

lemma agreeAt_flatMap {α : Type} {xs : List α} {places : α → List Occurrence}
    (h : AgreeAt f g (xs.flatMap places)) : ∀ x ∈ xs, AgreeAt f g (places x) :=
  fun x hx o ho => h o (mem_flatMap.mpr ⟨x,hx,ho⟩)

lemma agreeAt_singleton {o : Occurrence} {name : String} (h : AgreeAt f g [o])
    (ho : o.name? = some name) : f name = g name :=
  h o (mem_singleton.mpr rfl) name ho

namespace Part

lemma rename_congr : (∀ ps, AgreeAt f g (occurrences.occurrencesIn ps) →
      rename.renameList f ps = rename.renameList g ps) ∧
    ∀ ss, AgreeAt f g (occurrences.occurrencesInAll ss) → rename.renameLists f ss = rename.renameLists g ss := by
  refine induct (fun _ => rfl) ?_ (fun _ => rfl) ?_
  · intro p ps hi ih h
    obtain ⟨hp,hps⟩ := agreeAt_append.mp h
    refine congrArg₂ List.cons ?_ (ih hps)
    cases p with
    | className => exact congrArg className (agreeAt_singleton hp rfl)
    | idName => exact congrArg idName (agreeAt_singleton hp rfl)
    | pseudoClassOf name => exact congrArg (pseudoClassOf name) (hi hp)
    | _ => rfl
  · intro s ss hs ih h
    obtain ⟨h,hss⟩ := agreeAt_append.mp h
    exact congrArg₂ List.cons (hs h) (ih hss)

end Part

variable {foreign : String → String → String} {dashed : Bool}

namespace Component

lemma renameReference_congr (name : String) (source : Option NameSource)
    (h : AgreeAt f g (referenceOccurrence name source)) :
    renameReference ⟨f,foreign,dashed⟩ name source = renameReference ⟨g,foreign,dashed⟩ name source := by
  match source with
  | none => exact agreeAt_singleton h rfl
  | some .global => rfl
  | some (.file specifier) => rfl

lemma renameAll_congr (xs : List Component) (h : AgreeAt f g (occurrences.occurrencesIn xs)) :
    rename.renameAll ⟨f,foreign,dashed⟩ xs = rename.renameAll ⟨g,foreign,dashed⟩ xs := by
  induction xs using Value.induct with
  | nil => rfl
  | cons c xs hc ih =>
    obtain ⟨hx,hxs⟩ := agreeAt_append.mp h
    refine congrArg₂ List.cons ?_ (ih hxs)
    cases c with
    | reference name source fb =>
      obtain ⟨hn,hf⟩ := agreeAt_append.mp hx
      rw [rename,rename,renameReference_congr name source hn]
      cases fb with
      | none => rfl
      | some ys => exact congrArg (fun ys => reference _ none (some ys)) (hc hf)
    | function name ys => exact congrArg (function name) (hc hx)
    | block bracket ys => exact congrArg (block bracket) (hc hx)
    | _ => rfl

lemma occurrences_renameAnimation (keywords : List String) (c : Component) :
    (c.renameAnimation f keywords).occurrences = c.occurrences := by
  cases c <;> rfl

end Component

namespace Declaration

lemma occurrencesIn_renameAnimations (p : Property) (value : Value) :
    Component.occurrences.occurrencesIn (renameAnimations f p value) = Component.occurrences.occurrencesIn value := by
  unfold renameAnimations
  split
  · rename_i keywords _
    induction value with
    | nil => rfl
    | cons c value ih =>
      rw [map_cons,Component.occurrences.occurrencesIn,Component.occurrences.occurrencesIn,
        Component.occurrences_renameAnimation,ih]
  · rfl

lemma renameAnimations_congr (d : Declaration) (h : AgreeAt f g d.animationUses) :
    renameAnimations f d.property d.value = renameAnimations g d.property d.value := by
  unfold renameAnimations
  unfold animationUses at h
  split
  · rename_i keywords hk
    rw [hk] at h
    apply map_congr_left
    intro c hc
    have hu := agreeAt_flatMap h c hc
    cases c with
    | ident name =>
      simp only [Component.animationUse] at hu
      simp only [Component.renameAnimation]
      split
      · rfl
      · rename_i hn
        rw [if_neg hn] at hu
        rw [agreeAt_singleton hu rfl]
    | _ => rfl
  · rfl

lemma rename_congr (d : Declaration) (h : AgreeAt f g (d.occurrences dashed)) :
    d.rename ⟨f,foreign,dashed⟩ = d.rename ⟨g,foreign,dashed⟩ := by
  obtain ⟨⟨hd,hu⟩,hv⟩ := (agreeAt_append.trans (and_congr_left' agreeAt_append)).mp h
  have hpr : (match d.property with
      | .custom name => Property.custom (if dashed then f name else name)
      | p => p) =
      match d.property with
      | .custom name => Property.custom (if dashed then g name else name)
      | p => p := by
    unfold definitions at hd
    cases hp : d.property with
    | standard name vendor => rfl
    | custom name =>
      rw [hp] at hd
      cases dashed with
      | true =>
        have heq : f name = g name := agreeAt_singleton hd rfl
        exact congrArg Property.custom heq
      | false => rfl
  have hvl : (if dashed then Component.rename.renameAll ⟨f,foreign,dashed⟩
        (renameAnimations f d.property d.value) else renameAnimations f d.property d.value) =
      if dashed then Component.rename.renameAll ⟨g,foreign,dashed⟩
        (renameAnimations g d.property d.value) else renameAnimations g d.property d.value := by
    rw [renameAnimations_congr d hu]
    cases dashed with
    | true =>
      apply Component.renameAll_congr
      rw [occurrencesIn_renameAnimations]
      exact hv
    | false => rfl
  unfold rename
  simp only [hpr,hvl]

lemma map_rename_congr (ds : List Declaration) (h : AgreeAt f g (ds.flatMap (occurrences dashed))) :
    ds.map (rename ⟨f,foreign,dashed⟩) = ds.map (rename ⟨g,foreign,dashed⟩) :=
  map_congr_left fun d hd => rename_congr d (agreeAt_flatMap h d hd)

end Declaration

lemma StyleBlock.rename_congr (b : StyleBlock) (h : AgreeAt f g (b.occurrences dashed)) :
    b.rename ⟨f,foreign,dashed⟩ = b.rename ⟨g,foreign,dashed⟩ := by
  obtain ⟨⟨_,hs⟩,hd⟩ := (agreeAt_append.trans (and_congr_left' agreeAt_append)).mp h
  unfold rename
  rw [Part.rename_congr.2 b.selectors hs,Declaration.map_rename_congr _ hd]

lemma Statement.rename_congr (s : Statement) (h : AgreeAt f g (s.occurrences dashed)) :
    s.rename ⟨f,foreign,dashed⟩ = s.rename ⟨g,foreign,dashed⟩ := by
  cases s with
  | keyframes name quoted vendor frames =>
    obtain ⟨hn,hfr⟩ := agreeAt_append.mp h
    have ha : ∀ frame ∈ frames, frame.declarations.map (Declaration.rename ⟨f,foreign,dashed⟩) =
        frame.declarations.map (Declaration.rename ⟨g,foreign,dashed⟩) :=
      fun frame hf => Declaration.map_rename_congr _ (agreeAt_flatMap hfr frame hf)
    have ho : (if quoted then name else f name) = if quoted then name else g name := by
      cases quoted with
      | true => rfl
      | false => exact agreeAt_singleton hn rfl
    simp only [rename,ho]
    congr 1
    apply map_congr_left
    intro frame hf
    rw [ha frame hf]
  | property name ds =>
    obtain ⟨hn,hd⟩ := agreeAt_append.mp h
    have ho : (if dashed then f name else name) = if dashed then g name else name := by
      cases dashed with
      | true =>
        have heq : f name = g name := agreeAt_singleton hn rfl
        exact heq
      | false => rfl
    simp only [rename,ho,Declaration.map_rename_congr _ hd]
  | fontFace ds => exact congrArg fontFace (Declaration.map_rename_congr _ h)
  | page sels ds => exact congrArg (page sels) (Declaration.map_rename_congr _ h)
  | importSheet | namespaceOf | layers | customMedia | unknown => rfl

namespace Rule

lemma renameAll_congr (rs : List Rule) (h : AgreeAt f g (occurrences.occurrencesIn dashed rs)) :
    rename.renameAll ⟨f,foreign,dashed⟩ rs = rename.renameAll ⟨g,foreign,dashed⟩ rs := by
  induction rs using induct with
  | nil => rfl
  | cons rule rs hr ih =>
    obtain ⟨h,hrs⟩ := agreeAt_append.mp h
    refine congrArg₂ List.cons ?_ (ih hrs)
    cases rule with
    | style block =>
      obtain ⟨hb,h⟩ := agreeAt_append.mp h
      exact congrArg₂ style (block.rename_congr hb) (hr h)
    | nest block =>
      obtain ⟨hb,h⟩ := agreeAt_append.mp h
      exact congrArg₂ nest (block.rename_congr hb) (hr h)
    | group kind _ loc => exact congrArg (group kind · loc) (hr h)
    | statement s loc => exact congrArg (statement · loc) (s.rename_congr h)

end Rule
end

def Occurrence.isComposition : Occurrence → Bool
  | composed _ | composer .. | misplaced _ => true
  | _ => false

def Occurrence.isDeclared : Occurrence → Bool
  | definition _ | use _ | foreign .. => true
  | _ => false

lemma Occurrence.not_isComposition {o : Occurrence} (h : o.isDeclared) : o.isComposition = false := by
  cases o <;> first | rfl | cases h

namespace Part

lemma not_isComposition : (∀ ps, ∀ o ∈ occurrences.occurrencesIn ps, o.isComposition = false) ∧
    ∀ ss, ∀ o ∈ occurrences.occurrencesInAll ss, o.isComposition = false := by
  refine induct (forall_mem_nil _) ?_ (forall_mem_nil _) fun s ss hs ih => forall_mem_append.mpr ⟨hs,ih⟩
  intro p ps hi ih
  refine forall_mem_append.mpr ⟨?_,ih⟩
  cases p with
  | className | idName => exact forall_mem_singleton.mpr rfl
  | pseudoClassOf => exact hi
  | _ => exact forall_mem_nil _

lemma not_isComposition_selectors (ss : List Selector) : ∀ o ∈ occurrences.occurrencesInAll ss, o.isComposition = false :=
  not_isComposition.2 ss

end Part

namespace Component

lemma isDeclared_reference (name : String) (src : Option NameSource) :
    ∀ o ∈ referenceOccurrence name src, o.isDeclared := by
  intro o ho
  match src with
  | none =>
    rw [mem_singleton.mp ho]; rfl
  | some .global => cases ho
  | some (.file specifier) =>
    rw [mem_singleton.mp ho]; rfl

lemma isDeclared_all (xs : List Component) : ∀ o ∈ occurrences.occurrencesIn xs, o.isDeclared := by
  induction xs using Value.induct with
  | nil => exact forall_mem_nil _
  | cons c xs hc ih =>
    rw [occurrences.occurrencesIn,occurrences_eq,forall_mem_append,forall_mem_append]
    refine ⟨⟨?_,hc⟩,ih⟩
    cases c with
    | reference name src _ => exact isDeclared_reference name src
    | _ => exact forall_mem_nil _

end Component

variable {dashed : Bool}

namespace Declaration

lemma isDeclared (d : Declaration) : ∀ o ∈ d.occurrences dashed, o.isDeclared := by
  intro o ho
  rcases mem_append.mp ho with ho | ho
  · rcases mem_append.mp ho with ho | ho
    · unfold definitions at ho
      split at ho
      · split at ho
        · rw [mem_singleton.mp ho]; rfl
        · cases ho
      · cases ho
    · unfold animationUses at ho
      split at ho
      · obtain ⟨c,-,hc⟩ := mem_flatMap.mp ho
        unfold Component.animationUse at hc
        split at hc
        · split at hc
          · cases hc
          · rw [mem_singleton.mp hc]; rfl
        · cases hc
      · cases ho
  · split at ho
    · exact Component.isDeclared_all d.value o ho
    · cases ho

lemma isDeclared_all (ds : List Declaration) : ∀ o ∈ ds.flatMap (occurrences dashed), o.isDeclared := by
  intro o ho
  obtain ⟨d,-,hd⟩ := mem_flatMap.mp ho
  exact d.isDeclared o hd

end Declaration

lemma Statement.isDeclared (s : Statement) : ∀ o ∈ s.occurrences dashed, o.isDeclared := by
  have hn : ∀ (b : Bool) (name : String), ∀ o ∈ (if b then [] else [Occurrence.definition name]), o.isDeclared := by
    intro b name o ho
    split at ho
    · cases ho
    · rw [mem_singleton.mp ho]; rfl
  intro o ho
  cases s with
  | keyframes name quoted vendor frames =>
    rcases mem_append.mp ho with ho | ho
    · exact hn quoted name o ho
    · obtain ⟨frame,-,hf⟩ := mem_flatMap.mp ho
      exact isDeclared_all frame.declarations o hf
  | property name ds =>
    rcases mem_append.mp ho with ho | ho
    · refine hn (!dashed) name o ?_
      cases dashed <;> exact ho
    · exact isDeclared_all ds o ho
  | fontFace ds | page _ ds => exact isDeclared_all ds o ho
  | importSheet | namespaceOf | layers | customMedia | unknown => cases ho

lemma Selector.eq_of_singleClasses {sels : List Selector} {classes : List String}
    (h : sels.mapM singleClass? = some classes) :
    sels = classes.map fun name => [Part.className name] := by
  induction sels generalizing classes with
  | nil =>
    cases h
    rfl
  | cons sel sels ih =>
    rw [mapM_cons] at h
    obtain ⟨first,hf,h⟩ := Option.bind_eq_some_iff.mp h
    obtain ⟨rest,hr,h⟩ := Option.bind_eq_some_iff.mp h
    cases h
    unfold singleClass? at hf
    split at hf
    · rw [Option.some.inj hf,map_cons,← ih hr]
    · cases hf

lemma Part.className_mem_occurrences {selectors : List (List Part)} {name : String}
    (h : [Part.className name] ∈ selectors) :
    Occurrence.className name ∈ occurrences.occurrencesInAll selectors := by
  induction selectors with
  | nil => cases h
  | cons sel selectors ih =>
    rcases mem_cons.mp h with rfl | h
    · exact mem_append_left _ (mem_singleton.mpr rfl)
    · exact mem_append_right _ (ih h)

def Attached (places : List Occurrence) : Prop := ∀ name groups, .composer name groups ∈ places → .className name ∈ places

lemma attached_append {p q : List Occurrence} (hp : Attached p) (hq : Attached q) : Attached (p ++ q) := by
  intro name groups h
  rcases mem_append.mp h with h | h
  · exact mem_append_left q (hp name groups h)
  · exact mem_append_right p (hq name groups h)

lemma StyleBlock.attached (b : StyleBlock) : Attached (b.occurrences dashed) := by
  intro name groups h
  refine mem_append_left _ (mem_append_right _ ?_)
  rcases mem_append.mp h with h | h
  · rcases mem_append.mp h with h | h
    · unfold composition at h
      split at h
      · cases h
      · split at h
        · simp at h
        · rename_i classes hc
          have hn : name ∈ classes := by
            rcases mem_cons.mp h with h | h
            · cases h
            · obtain ⟨other,ho,heq⟩ := mem_map.mp h
              cases heq
              exact ho
          rw [Selector.eq_of_singleClasses hc]
          exact Part.className_mem_occurrences (mem_map_of_mem hn)
    · cases Part.not_isComposition_selectors _ _ h
  · cases isDeclared_all _ _ h

lemma Rule.attached_all (rs : List Rule) : Attached (occurrences.occurrencesIn dashed rs) := by
  induction rs using induct with
  | nil => exact fun _ _ h => nomatch h
  | cons rule rs hr ih =>
    refine attached_append ?_ ih
    cases rule with
    | style b | nest b => exact attached_append b.attached hr
    | group => exact hr
    | statement s => exact fun _ _ h => nomatch s.isDeclared _ h

end Css
