import Css.Proofs.Rule.Traversal
import Css.Sheet.Basic
import Css.Transform.Nesting

/-!
# The order of flattened rules

Rules are read from the first to the last, the declarations of a style rule before the rules nested in
it.
-/
namespace Css
open Rule.flatten List

inductive Rule.Saying where
  | block (declarations : List Declaration) (composes : List Composes) (location : Location)
  | statement (s : Statement) (location : Location)

structure Rule.Entry where
  groups : List (Group × Location)
  saying : Rule.Saying

namespace Rule

def entries (groups : List (Group × Location)) : Rule → List Entry
  | style b rules => own groups b ++ entriesOf groups rules
  | nest b rules => own groups b ++ entriesOf groups rules
  | group g rules location => entriesOf ((g,location) :: groups) rules
  | statement s location => [⟨groups,.statement s location⟩]
where
  own (groups : List (Group × Location)) (b : StyleBlock) : List Entry :=
    if b.declarations.isEmpty && b.composes.isEmpty then []
    else [⟨groups,.block b.declarations b.composes b.location⟩]
  entriesOf (groups : List (Group × Location)) : List Rule → List Entry
    | [] => []
    | r :: rs => r.entries groups ++ entriesOf groups rs

open entries

section
variable (groups : List (Group × Location))

lemma entriesOf_append (rs ss : List Rule) : entriesOf groups (rs ++ ss) =
      entriesOf groups rs ++ entriesOf groups ss := by
  induction rs with
  | nil => rfl
  | cons r rs ih =>
    rw [cons_append,entriesOf,entriesOf,ih,append_assoc]

lemma entriesOf_alone (b : StyleBlock) (sels : List Selector) :
    entriesOf groups (b.alone sels) = entries.own groups b := by
  unfold StyleBlock.alone
  by_cases hq : (b.declarations.isEmpty && b.composes.isEmpty)
  · rw [if_pos hq,entries.own,if_pos hq]; rfl
  · rw [if_neg hq]
    simp only [entriesOf,entries,append_nil]
    rfl

end

lemma entriesOf_nested {qs : Option (List Selector)} {b : StyleBlock}
    {rules flattened : List Rule} {groups : List (Group × Location)}
    (hr : ∀ (sels : List Selector) (inner : List Rule), flattenAll (some sels) rules = .ok inner →
        entriesOf groups inner = entriesOf groups rules)
    (h : (do
      let sels ← b.resolve qs
      return b.alone sels ++ (← flattenAll (some sels) rules)) = Except.ok flattened) :
    entriesOf groups flattened = entries.own groups b ++ entriesOf groups rules := by
  obtain ⟨sels,_,h⟩ := ok_of_bind_ok h
  obtain ⟨inner,hi,h⟩ := ok_of_bind_ok h
  cases h
  rw [entriesOf_append,entriesOf_alone,hr sels inner hi]

/-- What stands for rules in their place says what they and the rules nested in them say. -/
lemma entriesOf_flattenAll (rules : List Rule) (parents : Option (List Selector))
    (groups : List (Group × Location)) {flattened : List Rule}
    (h : flattenAll parents rules = .ok flattened) :
    entriesOf groups flattened = entriesOf groups rules := by
  induction rules using induct generalizing parents groups flattened with
  | nil =>
    cases h
    rfl
  | cons r rs hr ih =>
    rw [flattenAll] at h
    obtain ⟨first,more,hf,hm,rfl⟩ := ok_of_bind₂_ok h
    rw [entriesOf_append,entriesOf,ih parents groups hm]
    congr 1
    cases r with
    | style =>
      rw [flatten] at hf
      exact entriesOf_nested (fun sels _ => hr (some sels) groups) hf
    | nest =>
      rw [flatten] at hf
      by_cases hp : parents.isSome
      · rw [if_pos hp] at hf
        exact entriesOf_nested (fun sels _ => hr (some sels) groups) hf
      · rw [if_neg hp] at hf; cases hf
    | group g _ loc =>
      rw [flatten] at hf
      obtain ⟨inner,hi,hf⟩ := ok_of_bind_ok hf
      cases hf
      simp only [entriesOf,entries,hr parents ((g,loc) :: groups) hi,append_nil]
    | statement =>
      cases hf
      rfl

/-- Flattened rules say what the rules say, in the same order and in the same groups. -/
theorem entriesOf_flattenList {rules flattened : List Rule}
    (h : flattenList rules = .ok flattened) :
    entries.entriesOf [] flattened = entries.entriesOf [] rules :=
  entriesOf_flattenAll rules none [] h

/-- Of `.a{x:y;@media print{z:w;.b{}.c{u:v}}.d{@layer l{@nest .e &{p:q}}}@layer m;}@font-face{f:g}`
the groups are taken out of the style rules, with three entries in them and three beside them. -/
theorem entriesOf_flattenList_groups : ∃ sheet flattened,
      StyleSheet.parse (".a\x7bx:y;@media print\x7bz:w;.b\x7b\x7d.c\x7bu:v\x7d\x7d.d\x7b@layer l\x7b" ++
          "@nest .e &\x7bp:q\x7d\x7d\x7d@layer m;\x7d@font-face\x7bf:g\x7d") {} = .ok sheet ∧
        flattenList sheet.rules = .ok flattened ∧
          entries.entriesOf [] flattened = entries.entriesOf [] sheet.rules ∧
            (entries.entriesOf [] flattened).map (fun e => e.groups.length) = [0, 1, 1, 1, 0, 0] := by
  obtain ⟨sheet, hparse, hcheck⟩ := ok_of_any
    (x := StyleSheet.parse (".a\x7bx:y;@media print\x7bz:w;.b\x7b\x7d.c\x7bu:v\x7d\x7d.d\x7b@layer l\x7b" ++
      "@nest .e &\x7bp:q\x7d\x7d\x7d@layer m;\x7d@font-face\x7bf:g\x7d") {})
    (p := fun sheet => (flattenList sheet.rules).toOption.any fun flattened =>
      (entries.entriesOf [] flattened).map (fun e => e.groups.length) == [0, 1, 1, 1, 0, 0])
    (by decide +kernel)
  obtain ⟨flattened, hflat, hlengths⟩ := ok_of_any hcheck
  exact ⟨sheet, flattened, hparse, hflat, entriesOf_flattenList hflat, beq_iff_eq.mp hlengths⟩

end Rule
end Css
