import Css.Sheet.Basic
import Mathlib.Tactic.Lemma

/-!
# Where statements stand

In rules that a parser makes, a statement stands only where it may, and the name of a custom property
that is declared starts with two hyphens.
-/
namespace Css
open Prelude

def Declaration.isNamed (d : Declaration) : Bool :=
  match d.property with
  | .custom name => Text.startsWith name "--"
  | .standard .. => true

def Statement.declarations : Statement → List Declaration
  | keyframes _ _ _ frames => frames.flatMap Keyframe.declarations
  | property _ ds | fontFace ds | page _ ds => ds
  | _ => []

namespace Declaration

abbrev areNamed (ds : List Declaration) : Bool := ds.all isNamed

lemma isNamed_ofName (name : String) (value : Value) (important : Bool)
    (location : Location) : isNamed ⟨Property.ofName name,value,important,location⟩ := by
  unfold isNamed Property.ofName
  by_cases h : Text.startsWith name "--" <;> simp [h]

lemma isNamed_of_parse {d : Dialect} {name : Token} {rest : List Token}
    {declaration : Declaration} (h : parse d name rest = .ok declaration) :
    declaration.isNamed := by
  unfold parse at h
  split at h
  · cases h
  · split at h
    · cases h
    · simp only at h
      split at h
      · cases h
      · split at h
        · cases h
        · cases h
          exact isNamed_ofName _ _ _ _

lemma isNamed_of_parseEntry {d : Dialect} {name : Token} {rest : List Token}
    {declaration : Declaration} (h : parseEntry d name rest = .ok (.declaration declaration)) :
    declaration.isNamed := by
  unfold parseEntry at h
  split at h
  · cases h
  · rename_i found hp
    split at h
    · split at h
      · cases h
      · cases h
    · cases h
      exact isNamed_of_parse hp

end Declaration

def Statement.isAllowed (scope : Scope) : Statement → Bool
  | keyframes .. | property .. | fontFace _ | page .. => scope != .style
  | importSheet .. | namespaceOf .. | customMedia .. => scope == .top
  | layers _ | unknown .. => true

namespace RuleParser

lemma isImport_of_importSheet? {file : SourceFile} {tokens : List Token} {s : Statement}
    (h : importSheet? file tokens = .ok (some s)) :
    ∃ url layer supports media, s = .importSheet url layer supports media := by
  unfold importSheet? at h
  repeat' split at h
  all_goals cases h
  exact ⟨_,_,_,_,rfl⟩

lemma isNamespace_of_namespaceOf? {tokens : List Token} {s : Statement}
    (h : namespaceOf? tokens = some s) : ∃ name url, s = .namespaceOf name url := by
  unfold namespaceOf? at h
  simp only at h
  split at h
  · split at h
    · cases h
      exact ⟨_,_,rfl⟩
    · cases h
  · cases h

end RuleParser

namespace StyleSheet

lemma parse_ok {source : String} {options : ParseOptions} {sheet : StyleSheet} (h : parse source options = .ok sheet) :
    ∃ rules faults, (Rule.parse (dialect (SourceFile.ofText options.filename source) options) source).run.run [] =
        (.ok rules, faults) ∧
      sheet = {
        filename := options.filename, source, rules
        modules := options.modules, customMedia := options.customMedia
        warnings := faults.map (SourceFile.ofText options.filename source).error } := by
  unfold parse at h
  cases hp : checkPattern options with
  | error e =>
    rw [hp] at h; cases h
  | ok _ =>
    rw [hp] at h
    simp only [bind,Except.bind] at h
    split at h
    · cases h
    · rename_i rules faults hr
      cases h
      exact ⟨rules,faults,hr,rfl⟩

end StyleSheet
end Css
