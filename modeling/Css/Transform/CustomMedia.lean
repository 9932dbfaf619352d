import Css.Rule.Basic

/-!
# Custom media queries

A query that refers to custom media queries by name is replaced by what the names stand for.
-/
namespace Css

abbrev MediaDefinitions := List (String × MediaList)

namespace CustomMedia

def featureName? : MediaFeature → Option String
  | .boolean name => if Text.startsWith name "--" then some name else none
  | _ => none

def reference? : MediaQuery → Option String
  | ⟨none,none,some (.feature f)⟩ => featureName? f
  | _ => none

def soleCondition? : MediaList → Option MediaCondition
  | [⟨none,none,some c⟩] => some c
  | _ => none

def expandCondition (lookup : String → Except TransformCause MediaList) :
    MediaCondition → Except TransformCause MediaCondition
  | .feature f =>
    match featureName? f with
    | none => .ok (.feature f)
    | some name => do
      match soleCondition? (← lookup name) with
      | some c => return c
      | none => .error (.invalidCustomMedia name)
  | .negation c => return .negation (← expandCondition lookup c)
  | .operation connective cs => return .operation connective (← expandAll lookup cs)
  | .unknown text => .ok (.unknown text)
where
  expandAll (lookup : String → Except TransformCause MediaList) :
      List MediaCondition → Except TransformCause (List MediaCondition)
    | [] => .ok []
    | c :: cs => do return (← expandCondition lookup c) :: (← expandAll lookup cs)

def expandQuery (lookup : String → Except TransformCause MediaList) (query : MediaQuery) :
    Except TransformCause MediaList :=
  match reference? query with
  | some name => lookup name
  | none =>
    match query.condition with
    | none => .ok [query]
    | some c => do return [{ query with condition := some (← expandCondition lookup c) }]

def expandList (lookup : String → Except TransformCause MediaList) :
    MediaList → Except TransformCause MediaList
  | [] => .ok []
  | query :: queries => do return (← expandQuery lookup query) ++ (← expandList lookup queries)

def setAside (definitions : MediaDefinitions) (name : String) : MediaDefinitions :=
  definitions.filter fun d => d.1 != name

theorem length_setAside_lt {definitions : MediaDefinitions} {name : String} {media : MediaList}
    (h : definitions.lookup name = some media) :
    (setAside definitions name).length < definitions.length := by
  induction definitions with
  | nil => simp at h
  | cons d rest ih =>
    unfold setAside at ih ⊢
    by_cases hd : name = d.1
    · have : (d.1 != name) = false := by simp [hd]
      rw [List.filter_cons_of_neg (by simp [this])]
      exact Nat.lt_succ_of_le (List.length_filter_le _ _)
    · have hlookup : rest.lookup name = some media := by
        obtain ⟨other,value⟩ := d
        have : (name == other) = false := by simpa using hd
        simpa only [List.lookup_cons,this,Bool.false_eq_true,if_false] using h
      rw [List.filter_cons_of_pos (by simpa using fun heq => hd heq.symm)]
      simpa using ih hlookup

/-- The queries that a name stands for. The names in `entered` are being expanded, and their
definitions are no longer in `definitions`. -/
def lookup (definitions : MediaDefinitions) (entered : List String) (name : String) :
    Except TransformCause MediaList :=
  match h : definitions.lookup name with
  | some media =>
    have := length_setAside_lt h
    expandList (fun next => lookup (setAside definitions name) (name :: entered) next) media
  | none =>
    if entered.contains name then .error (.circularCustomMedia name)
    else .error (.undefinedCustomMedia name)
termination_by definitions.length

def visitor (definitions : MediaDefinitions) :
    Rule.Visitor (Except (TransformCause × Location)) where
  block b := .ok b
  group g location :=
    match g with
    | .media query => return .media (← expand location query)
    | g => .ok g
  statement s location :=
    match s with
    | .importSheet url layer supports media =>
      return .importSheet url layer supports (← expand location media)
    | s => .ok s
where
  expand (location : Location) (media : MediaList) : Except (TransformCause × Location) MediaList :=
    (expandList (lookup definitions []) media).mapError fun cause => (cause, location)

def definitions (rules : List Rule) : MediaDefinitions :=
  (rules.filterMap fun
    | .statement (.customMedia name media) _ => some (name, media)
    | _ => none).reverse

def isDefinition : Rule → Bool
  | .statement (.customMedia ..) _ => true
  | _ => false

/-- Expands all references to the custom media queries that rules define, and drops the
definitions. -/
def resolve (rules : List Rule) : Except (TransformCause × Location) (List Rule) :=
  Rule.traverseList (visitor (definitions rules)) (rules.filter fun r => !isDefinition r)

end CustomMedia

end Css
