import Css.Digest.Blake3
import Css.Error.Basic

/-!
# Generated names

A naming pattern is text with placeholders for the stem of the file, for the name itself and for a hash
of the file name.
-/
namespace Css.Modules

open Text

inductive Segment where
  | literal (text : List Char)
  | stem
  | name
  | hash
deriving DecidableEq

abbrev Pattern := List Segment

def placeholder? (s : List Char) : Option Segment :=
  if s = "name".toList then some .stem
  else if s = "local".toList then some .name
  else if s = "hash".toList then some .hash
  else none

def segments (whole : String) (s : List Char) : Except PatternProblem Pattern :=
  match s with
  | [] => .ok []
  | '[' :: rest =>
    let name := rest.takeWhile (· != ']')
    if name.length = rest.length then .error (.unclosed whole)
    else
      match placeholder? name with
      | none => .error (.unknownPlaceholder (String.ofList name))
      | some segment => do
        return segment :: (← segments whole (rest.drop (name.length + 1)))
  | c :: rest => do
    return .literal (c :: rest.takeWhile (· != '[')) ::
      (← segments whole (rest.dropWhile (· != '[')))
termination_by s.length
decreasing_by
  · simp only [List.length_drop,List.length_cons]
    omega
  · have h : (rest.dropWhile (· != '[')).length ≤ rest.length :=
      (List.dropWhile_suffix _).length_le
    simp only [List.length_cons]
    omega

def Pattern.read (s : String) : Except PatternProblem Pattern :=
  if s.isEmpty then .error .empty else segments s s.toList

def lastComponent? (path : List Char) : Option (List Char) :=
  let parts :=
    match splitBy (· == '/') path with
    | [] => []
    | first :: rest => first :: rest.filter (· != ['.'])
  match (parts.filter fun part => !part.isEmpty).getLast? with
  | none => none
  | some last => if last = ['.'] || last = ['.','.'] then none else some last

def dropExtension (name : List Char) : List Char :=
  match name.reverse.dropWhile (· != '.') with
  | [] => name
  | _ :: before => if before.isEmpty then name else before.reverse

/-- The file name without extension; what cannot stand in a name is replaced by an underscore. -/
def fileStem (filename : String) : List Char :=
  match lastComponent? filename.toList with
  | none => []
  | some name => (dropExtension name).map fun c => if isNameChar c then c else '_'

def makeIdentifier (s : List Char) : List Char :=
  match s with
  | [] => ['_']
  | '-' :: c :: rest => if c.isDigit then '_' :: '-' :: c :: rest else '-' :: c :: rest
  | c :: rest => if c.isDigit then '_' :: c :: rest else c :: rest

structure Naming where
  pattern : Pattern
  stem : List Char
  hash : List Char

namespace Naming

def ofFile (filename : String) (pattern : Pattern) : Naming :=
  ⟨pattern,fileStem filename,(Blake3.hexDigest filename).take 6⟩

def fill (naming : Naming) (name : List Char) : List Char :=
  naming.pattern.flatMap fun
    | .literal text => text
    | .stem => naming.stem
    | .name => name
    | .hash => naming.hash

def generate (naming : Naming) (name : String) : String :=
  match name.toList with
  | '-' :: '-' :: rest => String.ofList ('-' :: '-' :: naming.fill rest)
  | chars => String.ofList (makeIdentifier (naming.fill chars))

end Naming

def patternError (problem : PatternProblem) : Error :=
  ⟨.modules (.invalidPattern problem),none⟩

def localName (filename name pattern : String) : Except Error String :=
  match Pattern.read pattern with
  | .error problem => .error (patternError problem)
  | .ok pattern => .ok ((Naming.ofFile filename pattern).generate name)

end Css.Modules
