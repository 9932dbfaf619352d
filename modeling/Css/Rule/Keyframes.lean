import Css.Declaration.Parser
import Css.Rule.Prelude

/-!
# Parsing keyframes

The body of a rule of keyframes is cut into frames first, and then the declarations of each frame are
parsed.
-/
namespace Css.Keyframe

open Token Declaration

inductive Item where
  | invalid (first : Token)
  | frame (first : Token) (selectors : List KeyframeSelector) (opening : Token)
    (items : List Declaration.Item) (isClosed : Bool)

def isBrace (t : Token) : Bool :=
  t.kind == .leftBrace || t.kind == .rightBrace

def splitPrelude (t : Token) (rest : List Token) : List Token × List Token :=
  if isBrace t then ([], t :: rest)
  else
    let parts := splitBefore isBrace (depthAfter 0 t.kind) rest
    (t :: parts.1, parts.2)

theorem length_splitPrelude {t u : Token} {rest inner : List Token}
    (h : (splitPrelude t rest).2 = u :: inner) :
    inner.length ≤ rest.length ∧ (isBrace t = false → inner.length < rest.length) := by
  unfold splitPrelude at h
  split at h
  · simp_all
  · have hl := length_splitBefore_le isBrace (depthAfter 0 t.kind) rest
    rw [h,List.length_cons] at hl
    omega

theorem closing_not_first {t u : Token} {rest inner : List Token} (ht : t.kind ≠ .rightBrace)
    (h : (splitPrelude t rest).2 = u :: inner) (hu : u.kind ≠ .leftBrace) :
    inner.length < rest.length := by
  by_cases hb : isBrace t = true
  · simp [splitPrelude,hb] at h
    simp_all [isBrace]
  · exact (length_splitPrelude h).2 (by simpa using hb)

def splitFrames (tokens : List Token) : List Item × Option (List Token) :=
  match tokens with
  | [] => ([], none)
  | t :: rest =>
    if t.kind == .whitespace || t.kind == .semicolon then splitFrames rest
    else if hk : t.kind = .rightBrace then ([], some rest)
    else
      match hp : (splitPrelude t rest).2 with
      | [] => ([.invalid t], none)
      | u :: inner =>
        have := length_splitPrelude hp
        if hu : u.kind = .leftBrace then
          match Prelude.keyframeSelectors? (splitPrelude t rest).1 with
          | none =>
            have := length_dropGroup_le inner
            let (items, after) := splitFrames (dropGroup inner)
            (.invalid t :: items, after)
          | some selectors =>
            match hi : (splitItems inner).2 with
            | none => ([.frame t selectors u (splitItems inner).1 false], none)
            | some after =>
              have := length_splitItems hi
              let (items, after) := splitFrames after
              (.frame t selectors u (splitItems inner).1 true :: items, after)
        else
          have := closing_not_first hk hp hu
          let (items, after) := splitFrames (u :: inner)
          (.invalid t :: items, after)
termination_by tokens.length

def parseItem (d : Dialect) : Item → ParseM (List Keyframe)
  | .invalid first => do
    d.recover (.parse .invalidKeyframe first.span)
    return []
  | .frame first selectors opening items isClosed => do
    let declarations ← parseItems d items
    if isClosed then return [⟨selectors,declarations,d.location first⟩]
    else throw (.parse .unclosedBlock opening.span)

def parseBlock (d : Dialect) (opening : Token) (tokens : List Token) :
    ParseM (List Keyframe × List Token) := do
  let (items, after) := splitFrames tokens
  let frames ← items.mapM (parseItem d)
  match after with
  | some after => return (frames.flatten, after)
  | none => throw (.parse .unclosedBlock opening.span)

end Css.Keyframe
