import Css.Text.Basic

/-!
# Escapes

A backslash followed by up to six hexadecimal digits denotes the character of that code point, with one
white space character after the digits taken as their end.
-/
namespace Css.Escape

/-- The character of a code point, or the replacement character for zero, for surrogates and for
what lies beyond Unicode. -/
def charOfCode (n : Nat) : Char :=
  if n ≠ 0 && n.isValidChar then Char.ofNat n else '�'

def spanUpTo (p : Char → Bool) : Nat → List Char → List Char × List Char
  | 0, s => ([], s)
  | _, [] => ([], [])
  | n + 1, c :: s =>
    if p c then
      let (taken, rest) := spanUpTo p n s
      (c :: taken, rest)
    else ([], c :: s)

theorem spanUpTo_append (p : Char → Bool) (n : Nat) (s : List Char) :
    (spanUpTo p n s).1 ++ (spanUpTo p n s).2 = s := by
  induction n generalizing s with
  | zero => simp [spanUpTo]
  | succ n ih =>
    cases s with
    | nil => simp [spanUpTo]
    | cons c s =>
      rw [spanUpTo]
      split
      · simpa using ih s
      · simp

def dropSpace : List Char → List Char
  | [] => []
  | c :: s => if Text.isSpace c then s else c :: s

theorem length_dropSpace_le (s : List Char) : (dropSpace s).length ≤ s.length := by
  cases s with
  | nil => simp [dropSpace]
  | cons c s =>
    rw [dropSpace]
    split <;> simp

theorem length_spanUpTo_le (p : Char → Bool) (n : Nat) (s : List Char) :
    (spanUpTo p n s).2.length ≤ s.length := by
  have h := congrArg List.length (spanUpTo_append p n s)
  rw [List.length_append] at h
  omega

def decode (s : List Char) : List Char :=
  match s with
  | [] => []
  | '\\' :: [] => ['�']
  | '\\' :: '\r' :: '\n' :: rest => decode rest
  | '\\' :: c :: rest =>
    if Text.isNewline c then decode rest
    else if Text.isHexDigit c then
      charOfCode (Text.hexNumber (spanUpTo Text.isHexDigit 6 (c :: rest)).1) ::
        decode (dropSpace (spanUpTo Text.isHexDigit 6 (c :: rest)).2)
    else c :: decode rest
  | c :: rest => c :: decode rest
termination_by s.length
decreasing_by
  all_goals simp only [List.length_cons]
  · omega
  · omega
  · have h₁ := length_dropSpace_le (spanUpTo Text.isHexDigit 6 (c :: rest)).2
    have h₂ := length_spanUpTo_le Text.isHexDigit 6 (c :: rest)
    simp only [List.length_cons] at h₂
    omega
  · omega
  · omega

def unescape (s : String) : String :=
  String.ofList (decode s.toList)

end Css.Escape
