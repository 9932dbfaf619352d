import Css.Token.Content

/-!
# Lists of tokens

How a list of tokens is cut: at the white space around it, at a token outside of all brackets, and at
the token that closes a bracket.
-/
namespace Css.Token

def isBlank (t : Token) : Bool :=
  t.kind == .whitespace

def dropBlank (tokens : List Token) : List Token :=
  tokens.dropWhile isBlank

def trimBlank (tokens : List Token) : List Token :=
  (dropBlank (dropBlank tokens).reverse).reverse

def spanOf (tokens : List Token) : Span :=
  match tokens.head?, tokens.getLast? with
  | some first, some last => first.span.join last.span
  | _, _ => .none

def depthAfter (depth : Nat) (kind : Kind) : Nat :=
  if kind.opens then depth + 1 else if kind.closes then depth - 1 else depth

/-- Splits before the first token outside of `depth` open brackets that satisfies `stop`. -/
def splitBefore (stop : Token → Bool) (depth : Nat) : List Token → List Token × List Token
  | [] => ([], [])
  | t :: rest =>
    if depth = 0 && stop t then ([], t :: rest)
    else
      let (before, after) := splitBefore stop (depthAfter depth t.kind) rest
      (t :: before, after)

/-- Splits at the token that closes the last of `depth` open brackets, which is in neither part. -/
def splitClosing (depth : Nat) : List Token → Option (List Token × List Token)
  | [] => none
  | t :: rest =>
    if t.kind.closes && depth ≤ 1 then some ([], rest)
    else (splitClosing (depthAfter depth t.kind) rest).map fun (inner, after) => (t :: inner, after)

def dropGroup (tokens : List Token) : List Token :=
  match splitClosing 1 tokens with
  | some (_, after) => after
  | none => []

/-- The tokens up to the one that closes the last of `depth` parentheses and square brackets, and what
follows it. -/
def splitParens (depth : Nat) : List Token → Option (List Token × List Token)
  | [] => none
  | t :: rest =>
    let next (depth : Nat) :=
      (splitParens depth rest).map fun (inner, after) => (t :: inner, after)
    match t.kind with
    | .function | .leftParen | .leftBracket => next (depth + 1)
    | .rightParen | .rightBracket => if depth ≤ 1 then some ([], rest) else next (depth - 1)
    | _ => next depth

def partsFrom (depth : Nat) : List Token → List (List Token)
  | [] => [[]]
  | t :: rest =>
    if depth = 0 && t.kind == .comma then [] :: partsFrom depth rest
    else
      match partsFrom (depthAfter depth t.kind) rest with
      | [] => [[t]]
      | part :: parts => (t :: part) :: parts

def commaParts (tokens : List Token) : List (List Token) :=
  if tokens.isEmpty then [] else partsFrom 0 tokens

def plainText (tokens : List Token) : String :=
  String.join ((trimBlank tokens).map fun t => if t.isBlank then " " else t.text)

theorem length_dropBlank_le (tokens : List Token) : (dropBlank tokens).length ≤ tokens.length :=
  (List.dropWhile_suffix _).length_le

theorem splitBefore_append (stop : Token → Bool) (depth : Nat) (tokens : List Token) :
    (splitBefore stop depth tokens).1 ++ (splitBefore stop depth tokens).2 = tokens := by
  induction tokens generalizing depth with
  | nil => rfl
  | cons t rest ih =>
    unfold splitBefore
    split
    · rfl
    · simp [ih]

theorem length_splitBefore_le (stop : Token → Bool) (depth : Nat) (tokens : List Token) :
    (splitBefore stop depth tokens).2.length ≤ tokens.length := by
  have h := congrArg List.length (splitBefore_append stop depth tokens)
  rw [List.length_append] at h
  omega

theorem eq_of_splitClosing {depth : Nat} {tokens inner after : List Token}
    (h : splitClosing depth tokens = some (inner, after)) : ∃ t, tokens = inner ++ t :: after := by
  induction tokens generalizing depth inner after with
  | nil => cases h
  | cons t rest ih =>
    rw [splitClosing] at h
    split at h
    · cases h
      exact ⟨t,rfl⟩
    · obtain ⟨⟨a,b⟩,hab,heq⟩ := Option.map_eq_some_iff.1 h
      cases heq
      obtain ⟨u,rfl⟩ := ih hab
      exact ⟨u,rfl⟩

/-- What is inside of parentheses, the closing one and what follows it are all there is. -/
theorem eq_of_splitParens {depth : Nat} {tokens inner after : List Token}
    (h : splitParens depth tokens = some (inner, after)) :
    ∃ t, (t.kind = .rightParen ∨ t.kind = .rightBracket) ∧ tokens = inner ++ t :: after := by
  induction tokens generalizing depth inner after with
  | nil => cases h
  | cons t rest ih =>
    have hn {depth : Nat}
        (h : (splitParens depth rest).map (fun ps => (t :: ps.1, ps.2)) = some (inner, after)) :
        ∃ u, (u.kind = .rightParen ∨ u.kind = .rightBracket) ∧ t :: rest = inner ++ u :: after := by
      obtain ⟨⟨a,b⟩,hab,heq⟩ := Option.map_eq_some_iff.1 h
      cases heq
      obtain ⟨u,hu,rfl⟩ := ih hab
      exact ⟨u,hu,rfl⟩
    unfold splitParens at h
    repeat' split at h
    all_goals first
      | exact hn h
      | (cases h
         exact ⟨t,by simp [*],rfl⟩)

theorem length_dropGroup_le (tokens : List Token) : (dropGroup tokens).length ≤ tokens.length := by
  unfold dropGroup
  split
  · rename_i h
    obtain ⟨t,rfl⟩ := eq_of_splitClosing h
    simp
    omega
  · simp

end Css.Token
