import Css.Error.Basic

/-!
# Reports

The texts that a drawn report of an error carries: a title, a label for the place to blame, and help
where there is an obvious remedy.
-/
namespace Css.Error

def title (e : Error) : String :=
  "Error: " ++ e.category ++ ": " ++ e.message

def label (e : Error) : String :=
  match e.cause with
  | .parse (.missingValue _) => "value expected here"
  | .parse .unclosedBlock => "block opened here"
  | .parse .invalidNesting => "no enclosing style rule"
  | .parse _ => "unexpected"
  | .modules _ => "in this rule"
  | .transform _ => "cannot be resolved"
  | .target _ => "here"

def help? (e : Error) : Option String :=
  match e.cause with
  | .parse .unclosedBlock => some "add a closing '\x7d'"
  | .parse .invalidNesting =>
    some "`&` refers to the parent rule's selector; move this rule inside one"
  | .modules (.invalidPattern _) => some "patterns may only use [name], [local] and [hash]"
  | .modules .composesNotAllowed => some "move composes into a rule like `.name \x7b ... \x7d`"
  | .modules (.nameCollision ..) => some "include [local] in the naming pattern"
  | _ => none

end Css.Error
