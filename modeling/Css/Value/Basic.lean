import Css.Source.Location
import Css.Value.Color

/-!
# Values

The value of a declaration is a list of components: leaves such as identifiers, numbers and colours, and
functions, blocks and references to variables, which hold lists in turn.
-/
namespace Css

inductive NameSource where
  | global
  | file (name : String)
deriving DecidableEq

inductive Bracket where
  | paren | square | brace
deriving DecidableEq

inductive Component where
  | ident (name : String)
  | number (x : Float32)
  | percentage (x : Float32)
  | dimension (x : Float32) (unit : String)
  | color (c : Color)
  | string (s : String)
  | url (address : String) (location : Location)
  | hash (name : String)
  | reference (name : String) (source : Option NameSource) (fallback : Option (List Component))
  | function (name : String) (arguments : List Component)
  | block (bracket : Bracket) (contents : List Component)
  | comma
  | colon
  | semicolon
  | delim (c : Char)
  | atKeyword (name : String)
  | unicodeRange (text : String)
  | whitespace

abbrev Value := List Component

namespace Component

def same : Component → Component → Bool
  | ident a, ident b => a == b
  | number x, number y => x == y
  | percentage x, percentage y => x == y
  | dimension x u, dimension y v => x == y && u == v
  | color c, color d => c == d
  | string s, string t => s == t
  | url a _, url b _ => a == b
  | hash a, hash b => a == b
  | reference a s f, reference b t g => a == b && s == t && sameFallback f g
  | function a xs, function b ys => a == b && sameAll xs ys
  | block j xs, block k ys => j == k && sameAll xs ys
  | comma, comma => true
  | colon, colon => true
  | semicolon, semicolon => true
  | delim c, delim d => c == d
  | atKeyword a, atKeyword b => a == b
  | unicodeRange s, unicodeRange t => s == t
  | whitespace, whitespace => true
  | _, _ => false
where
  sameAll : List Component → List Component → Bool
    | [], [] => true
    | x :: xs, y :: ys => x.same y && sameAll xs ys
    | _, _ => false
  sameFallback : Option (List Component) → Option (List Component) → Bool
    | none, none => true
    | some xs, some ys => sameAll xs ys
    | _, _ => false

instance : BEq Component := ⟨same⟩

def isWhitespace : Component → Bool
  | whitespace => true
  | _ => false

def isComma : Component → Bool
  | comma => true
  | _ => false

def isKeyword (keyword : String) : Component → Bool
  | ident name => Text.lower name == keyword
  | _ => false

def anywhere (p : Component → Bool) (c : Component) : Bool :=
  p c || match c with
    | reference _ _ (some xs) => anywhereIn p xs
    | function _ xs => anywhereIn p xs
    | block _ xs => anywhereIn p xs
    | _ => false
where
  anywhereIn (p : Component → Bool) : List Component → Bool
    | [] => false
    | x :: xs => x.anywhere p || anywhereIn p xs

structure Visitor (m : Type → Type) where
  leaf : Component → m Component
  reference : String → Option NameSource → m (String × Option NameSource)

def traverse {m : Type → Type} [Monad m] (v : Visitor m) : Component → m Component
  | reference name source fallback => do
    let (name, source) ← v.reference name source
    return reference name source (← traverseFallback v fallback)
  | function name xs => return function name (← traverseAll v xs)
  | block bracket xs => return block bracket (← traverseAll v xs)
  | c => v.leaf c
where
  traverseAll {m : Type → Type} [Monad m] (v : Visitor m) : List Component → m (List Component)
    | [] => return []
    | x :: xs => return (← x.traverse v) :: (← traverseAll v xs)
  traverseFallback {m : Type → Type} [Monad m] (v : Visitor m) :
      Option (List Component) → m (Option (List Component))
    | none => return none
    | some xs => return some (← traverseAll v xs)

/-- The components that a component holds. -/
@[reducible]
def inner : Component → List Component
  | reference _ _ (some xs) | function _ xs | block _ xs => xs
  | _ => []

theorem sizeOf_inner (c : Component) : sizeOf c.inner ≤ sizeOf c := by
  cases c with
  | reference _ _ fallback => cases fallback <;> simp [inner] <;> omega
  | _ => simp [inner] <;> omega

theorem anywhere_eq (p : Component → Bool) (c : Component) :
    c.anywhere p = (p c || anywhere.anywhereIn p c.inner) := by
  cases c with
  | reference _ _ fallback => cases fallback <;> rfl
  | _ => rfl

end Component

namespace Value

@[elab_as_elim]
theorem induct {motive : List Component → Prop} (nil : motive [])
    (cons : ∀ c xs, motive c.inner → motive xs → motive (c :: xs)) : ∀ xs, motive xs
  | [] => nil
  | c :: xs => cons c xs (induct nil cons c.inner) (induct nil cons xs)
termination_by xs => sizeOf xs
decreasing_by
  · have h := c.sizeOf_inner
    rw [List.cons.sizeOf_spec]
    omega
  · rw [List.cons.sizeOf_spec]
    omega

def same (a b : Value) : Bool :=
  Component.same.sameAll a b

def ident? : Value → Option String
  | [.ident name] => some name
  | _ => none

def anywhere (p : Component → Bool) (value : Value) : Bool :=
  value.any (Component.anywhere p)

def traverse {m : Type → Type} [Monad m] (v : Component.Visitor m) (value : Value) : m Value :=
  Component.traverse.traverseAll v value

def mapLeaves (f : Component → Component) (value : Value) : Value :=
  Id.run (value.traverse ⟨fun c => pure (f c),fun name source => pure (name, source)⟩)

def hasVariable (value : Value) : Bool :=
  value.anywhere fun
    | .reference .. => true
    | _ => false

def trim (value : Value) : Value :=
  (value.dropWhile Component.isWhitespace).reverse.dropWhile Component.isWhitespace |>.reverse

def parts (value : Value) : List Value :=
  (value.splitOnP Component.isWhitespace).filter fun part => !part.isEmpty

def parts? (value : Value) : Option (List Value) :=
  if value.any Component.isComma then none else some value.parts

def ofParts (parts : List Value) : Value :=
  [Component.whitespace].intercalate parts

end Value

end Css
