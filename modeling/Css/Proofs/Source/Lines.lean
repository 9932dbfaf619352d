import Css.Source.Location
import Mathlib.Tactic.Lemma

/-!
# Lines of a text

A character may end a line, depending on what follows it: a carriage return does not if a line feed
follows, which ends the line in its place.
-/
namespace Css.Text
open List

def IsBoundary (s : List Char) (offset : Nat) : Prop := ∃ before after, before ++ after = s ∧ utf8Length before = offset

lemma utf8Length_pos {s : List Char} (h : s ≠ []) : 0 < utf8Length s := by
  cases s with
  | nil => exact absurd rfl h
  | cons c s => exact Nat.add_pos_left (Char.utf8Size_pos c) _

lemma utf16Length_append (s s' : List Char) : utf16Length (s ++ s') = utf16Length s + utf16Length s' := by
  induction s with
  | nil => exact (Nat.zero_add _).symm
  | cons c s ih => rw [cons_append,utf16Length,utf16Length,ih,Nat.add_assoc]

lemma utf16Length_pos {s : List Char} (h : s ≠ []) : 0 < utf16Length s := by
  cases s with
  | nil => exact absurd rfl h
  | cons c s =>
    refine Nat.add_pos_left ?_ _
    rw [utf16Size]
    split <;> decide

lemma dropBytes?_append (s rest : List Char) : dropBytes? (utf8Length s) (s ++ rest) = some rest := by
  induction s with
  | nil => cases rest <;> rfl
  | cons c s ih =>
    have hc := c.utf8Size_pos
    rw [cons_append,utf8Length,dropBytes?,if_neg (by omega),if_pos (Nat.le_add_right ..),Nat.add_sub_cancel_left,ih]

lemma takeBytes?_append (s rest : List Char) : takeBytes? (utf8Length s) (s ++ rest) = some s := by
  induction s with
  | nil => cases rest <;> rfl
  | cons c s ih =>
    have hc := c.utf8Size_pos
    rw [cons_append,utf8Length,takeBytes?,if_neg (by omega),if_pos (Nat.le_add_right ..),Nat.add_sub_cancel_left,ih]
    rfl

/-- What stands between two boundaries is the slice between their offsets. -/
lemma sliceBytes?_append (before s after : List Char) :
    sliceBytes? (utf8Length before) (utf8Length before + utf8Length s) (before ++ (s ++ after)) = some s := by
  rw [sliceBytes?,if_pos (Nat.le_add_right ..),dropBytes?_append,Option.bind_some,
    Nat.add_sub_cancel_left,takeBytes?_append]

end Css.Text

namespace Css
open List Text

def Location.Before (a b : Location) : Prop := a.line < b.line ∨ a.line = b.line ∧ a.column < b.column

namespace LineIndex

def endsLine (c : Char) (rest : List Char) : Bool := isNewline c && !(c == '\r' && rest.head? == some '\n')

/-- The number of characters of a text that end a line, where `after` follows the text. -/
def lineEnds : List Char → List Char → Nat
  | [], _ => 0
  | c :: s, after => lineEnds s after + if endsLine c (s ++ after) then 1 else 0

/-- What stands behind the last character of a text that ends a line. -/
def currentLine : List Char → List Char → List Char
  | [], _ => []
  | c :: s, after =>
    if lineEnds (c :: s) after = 0 then c :: s else currentLine s after

def lineStarts (offset : Nat) : List Char → List Char → List Nat
  | [], _ => []
  | c :: s, after =>
    let starts := lineStarts (offset + c.utf8Size) s after
    if endsLine c (s ++ after) then (offset + c.utf8Size) :: starts else starts

variable {before after : List Char}

lemma startsAfter_eq (offset : Nat) (s : List Char) : startsAfter offset s = lineStarts offset s [] := by
  fun_induction startsAfter offset s with
  | case1 => rfl
  | case2 offset s ih => exact congrArg ((offset + 2) :: ·) ih
  | case3 offset c s hs next hc ih =>
    have hend : endsLine c (s ++ []) := by
      rw [endsLine,hc,append_nil,Bool.true_and,Bool.not_eq_true',Bool.eq_false_iff]
      intro h
      obtain ⟨hc,hs'⟩ := Bool.and_eq_true_iff.mp h
      cases s with
      | nil => cases hs'
      | cons d s => exact hs s (eq_of_beq hc) (congrArg (· :: s) (Option.some.inj (eq_of_beq hs')))
    rw [lineStarts,if_pos hend,ih]
  | case4 offset c s _ next hc ih =>
    rw [lineStarts,endsLine,Bool.eq_false_iff.mpr hc,ih]; rfl

lemma length_lineStarts (offset : Nat) (before after : List Char) :
    (lineStarts offset before after).length = lineEnds before after := by
  induction before generalizing offset with
  | nil => rfl
  | cons c s ih =>
    rw [lineStarts,lineEnds]
    split
    · rw [length_cons,ih]
    · exact ih _

lemma lineStarts_append (offset : Nat) (s : List Char) : lineStarts offset (before ++ s) after =
      lineStarts offset before (s ++ after) ++ lineStarts (offset + utf8Length before) s after := by
  induction before generalizing offset with
  | nil => rfl
  | cons c before ih =>
    rw [cons_append,lineStarts,lineStarts,ih,append_assoc,utf8Length,Nat.add_assoc]
    split <;> rfl

lemma mem_lineStarts {offset start : Nat} (h : start ∈ lineStarts offset before after) :
    offset < start ∧ start ≤ offset + utf8Length before := by
  induction before generalizing offset with
  | nil => cases h
  | cons c s ih =>
    have hc := c.utf8Size_pos
    rw [lineStarts] at h
    rw [utf8Length]
    split at h
    · rcases mem_cons.mp h with rfl | h
      · omega
      · have := ih h
        omega
    · have := ih h
      omega

lemma takeWhile_starts (before after : List Char) :
    (0 :: startsAfter 0 (before ++ after)).takeWhile (· ≤ utf8Length before) = 0 :: lineStarts 0 before after := by
  rw [takeWhile_cons,decide_eq_true (Nat.zero_le _),if_pos rfl,startsAfter_eq,lineStarts_append,
    append_nil,takeWhile_append_of_pos]
  · cases hl : lineStarts (0 + utf8Length before) after [] with
    | nil => rw [takeWhile_nil,append_nil]
    | cons start starts =>
      have hs := (mem_lineStarts (hl ▸ mem_cons_self : start ∈ _)).1
      rw [takeWhile_cons_of_neg (by simpa using hs),append_nil]
  · intro start hs
    exact decide_eq_true (by simpa using (mem_lineStarts hs).2)

lemma getLast?_lineStarts (offset : Nat) (before after : List Char) :
    ∃ front, front ++ currentLine before after = before ∧
      (offset :: lineStarts offset before after).getLast? = some (offset + utf8Length front) := by
  induction before generalizing offset with
  | nil => exact ⟨[],rfl,rfl⟩
  | cons c s ih =>
    obtain ⟨front,hf,hl⟩ := ih (offset + c.utf8Size)
    have hn := length_lineStarts offset (c :: s) after
    rw [currentLine]
    split
    · rename_i h
      rw [h,length_eq_zero_iff] at hn
      rw [hn]
      exact ⟨[],rfl,rfl⟩
    · rename_i h
      refine ⟨c :: front,congrArg (c :: ·) hf,?_⟩
      rw [utf8Length,← Nat.add_assoc,← hl]
      rw [lineStarts] at hn ⊢
      split
      · rfl
      · rename_i hc
        rw [if_neg hc,length_lineStarts] at hn
        cases hs : lineStarts (offset + c.utf8Size) s after with
        | nil =>
          have := length_lineStarts (offset + c.utf8Size) s after
          rw [hs,hn] at this
          exact absurd this.symm h
        | cons => rfl

lemma location_of_append {src : String} (h : before ++ after = src.toList) :
    (ofSource src).location (utf8Length before) = ⟨lineEnds before after,utf16Length (currentLine before after)⟩ := by
  obtain ⟨front,hf,hl⟩ := getLast?_lineStarts 0 before after
  have hstop : min (utf8Length before) (utf8Length src.toList) = utf8Length before := by
    rw [← h,utf8Length_append]; omega
  have hslice : sliceBytes? (utf8Length front) (utf8Length before) src.toList = some (currentLine before after) := by
    have hs := sliceBytes?_append front (currentLine before after) after
    rwa [← append_assoc,← utf8Length_append,hf,h] at hs
  rw [location,ofSource]
  rw [hstop,← h,takeWhile_starts,hl,length_cons,length_lineStarts,h,Option.getD_some,Nat.zero_add,hslice]
  rfl

lemma lineEnds_append (before s after : List Char) :
    lineEnds (before ++ s) after = lineEnds before (s ++ after) + lineEnds s after := by
  rw [← length_lineStarts 0,lineStarts_append,length_append,length_lineStarts,length_lineStarts]

lemma currentLine_append {s : List Char} (hs : lineEnds s after = 0) :
    currentLine (before ++ s) after = currentLine before (s ++ after) ++ s := by
  induction before with
  | nil =>
    cases s with
    | nil => rfl
    | cons c s => exact if_pos hs
  | cons c before ih =>
    have hn := lineEnds_append (c :: before) s after
    rw [hs,Nat.add_zero] at hn
    rw [cons_append,currentLine,currentLine,← cons_append,hn,ih]
    split <;> rfl

/-- The line of an offset is the number of line ends before it, and its column the length of what
stands behind the last of them. So locations follow each other as the offsets do. -/
theorem location_eq_lineEnds (source : String) :
    (∀ before after, before ++ after = source.toList →
      (ofSource source).location (utf8Length before) =
        ⟨lineEnds before after, utf16Length (currentLine before after)⟩) ∧
    ∀ offset offset', IsBoundary source.toList offset → IsBoundary source.toList offset' →
      offset < offset' →
        ((ofSource source).location offset).Before ((ofSource source).location offset') := by
  refine ⟨fun before after h => location_of_append h, ?_⟩
  rintro _ _ ⟨before, after, h, rfl⟩ ⟨before', after', h', rfl⟩ hlt
  rw [location_of_append h, location_of_append h']
  rcases prefix_or_prefix_of_prefix ⟨after, h⟩ ⟨after', h'⟩ with ⟨s, rfl⟩ | ⟨s, rfl⟩
  · have hafter : after = s ++ after' := append_cancel_left (h.trans (h'.symm.trans (append_assoc ..)))
    rw [hafter, Location.Before, lineEnds_append]
    by_cases hs : lineEnds s after' = 0
    · rw [currentLine_append hs, utf16Length_append, hs]
      refine .inr ⟨rfl, Nat.lt_add_of_pos_right (utf16Length_pos ?_)⟩
      rintro rfl
      rw [append_nil] at hlt
      exact Nat.lt_irrefl _ hlt
    · exact .inl (Nat.lt_add_of_pos_right (Nat.pos_of_ne_zero hs))
  · rw [utf8Length_append] at hlt
    omega

end LineIndex
end Css
