import Css.Proofs.Number.Numeral
import Css.Proofs.Token.Scanning

/-!
# Numbers, percentages and dimensions

A numeral is cut off whole if what follows it is no digit, no point and no exponent, which holds of
every unit that is written behind one.
-/
namespace Css
open List Text Number Bool Lexer Written Char
namespace Lexer

def endsNumber (s : List Char) : Bool := !startsDigit s && s.head? != some '.' && (spanExponent s).1.isEmpty

variable {n : Numeral} {rest : List Char} {c : Char}

lemma spanSign_of_ne (hp : c ≠ '+') (hm : c ≠ '-') (s : List Char) : spanSign (c :: s) = ([],c :: s) := by
  unfold spanSign
  split
  · rename_i heq
    exact absurd (List.cons.inj heq).1 hp
  · rename_i heq
    exact absurd (List.cons.inj heq).1 hm
  · rfl

lemma spanSign_text (h : n.IsPlain) (rest : List Char) : spanSign (n.text ++ rest) =
      (if n.negative then ['-'] else [],n.whole ++ (n.point ++ rest)) := by
  unfold Numeral.text
  cases n.negative with
  | true =>
    rw [if_pos rfl,append_assoc,append_assoc]; rfl
  | false =>
    obtain ⟨c,more,hd,hc⟩ := h.head_digits
    rw [if_neg Bool.false_ne_true,nil_append,← append_assoc,hd,cons_append]
    refine spanSign_of_ne ?_ ?_ _ <;>
      rintro rfl <;> rcases hc with hc | hc <;> cases hc

lemma spanDigits_of_all {ds : List Char} (h : ∀ c ∈ ds, c.isDigit)
    (hrest : startsDigit rest = false) : spanDigits (ds ++ rest) = (ds,rest) := by
  have hh : rest.head?.any isDigit = false := by
    cases rest with
    | nil => rfl
    | cons c rest => exact hrest
  obtain ⟨ht,hd⟩ := takeWhile_isDigit_append h hh
  rw [spanDigits,ht,hd]

lemma spanFraction_point (h : n.IsPlain) (hd : startsDigit rest = false) (hp : rest.head? ≠ some '.') :
    spanFraction (n.point ++ rest) = (n.point,rest) := by
  by_cases hf : n.fraction = []
  · rw [Numeral.point_nil hf,nil_append]
    unfold spanFraction
    split
    · exact absurd rfl hp
    · rfl
  · have hs : startsDigit (n.fraction ++ rest) := by
      obtain ⟨c,more,hm⟩ := exists_cons_of_ne_nil hf
      rw [hm]
      exact h.fraction c (by simp [hm])
    rw [Numeral.point_cons hf,cons_append,spanFraction,if_pos hs,spanDigits_of_all h.fraction hd]

lemma spanNumber_text (h : n.IsPlain) (hrest : endsNumber rest) : spanNumber (n.text ++ rest) = (n.text,rest) := by
  rw [endsNumber,Bool.and_eq_true,Bool.and_eq_true,Bool.not_eq_true',bne_iff_ne] at hrest
  obtain ⟨⟨hd,hp⟩,he⟩ := hrest
  have hs : spanExponent rest = ([],rest) := by
    have hn := isEmpty_iff.mp he
    have ha := spanExponent_append rest
    rw [hn,nil_append] at ha
    exact Prod.ext hn ha
  have hst : startsDigit (n.point ++ rest) = false := by
    unfold Numeral.point
    split
    · exact hd
    · rfl
  unfold spanNumber
  rw [spanSign_text h]
  dsimp only
  rw [spanDigits_of_all h.whole hst,spanFraction_point h hd hp,hs,append_nil,append_assoc]; rfl

def startsOnlyNumber (c : Char) : Bool :=
  !isSpace c && !(c == '\x22' || c == '\x27') && c != '#' && c != '@' && (punctuation? c).isNone

lemma startsOnlyNumber_ascii : ∀ n < 58, 48 ≤ n → startsOnlyNumber (ofNat n) := by decide

lemma startsOnlyNumber_of_isDigit (h : c.isDigit) : startsOnlyNumber c := by
  simp only [Char.isDigit,and_eq_true,decide_eq_true_eq] at h
  have hl : 48 ≤ c.toNat := h.1
  have hh : c.toNat ≤ 57 := h.2
  have ha := startsOnlyNumber_ascii c.toNat (by omega) hl
  rw [Char.ofNat_toNat] at ha
  exact ha

lemma next_eq_numeric {s : List Char} (hc : startsOnlyNumber c)
    (h : startsNumber (c :: s)) : next (c :: s) = numeric (c :: s) := by
  simp only [startsOnlyNumber,and_eq_true,not_eq_true',bne_iff_ne] at hc
  obtain ⟨⟨⟨⟨hs,hq⟩,hh⟩,hat⟩,hp⟩ := hc
  rw [next,if_neg (by simp [hs]),if_neg (by simp [hq]),if_neg (by simpa using hh),
    if_neg (by simpa using hat),Option.isNone_iff_eq_none.mp hp]
  exact if_pos h

lemma startsUnsigned_digits (h : n.IsPlain) (rest : List Char) : startsUnsigned (n.whole ++ (n.point ++ rest)) := by
  cases hw : n.whole with
  | cons c more =>
    have hc : c.isDigit := h.whole c (by simp [hw])
    rw [cons_append]
    unfold startsUnsigned
    split
    · rename_i heq
      rw [(List.cons.inj heq).1] at hc; cases hc
    · exact hc
  | nil =>
    have hf : n.fraction ≠ [] := h.nonempty.resolve_left fun hne => hne hw
    obtain ⟨c,more,hm⟩ := exists_cons_of_ne_nil hf
    rw [Numeral.point_cons hf,hm]
    exact h.fraction c (by simp [hm])

lemma next_text (h : n.IsPlain) (rest : List Char) :
    next (n.text ++ rest) = numeric (n.text ++ rest) := by
  have hu := startsUnsigned_digits h rest
  unfold Numeral.text
  cases n.negative with
  | true =>
    rw [if_pos rfl,append_assoc,append_assoc]
    exact next_eq_numeric rfl hu
  | false =>
    obtain ⟨c,more,hd,hc⟩ := h.head_digits
    rw [← append_assoc,hd] at hu
    rw [if_neg Bool.false_ne_true,nil_append,hd]
    rcases hc with hc | rfl
    · apply next_eq_numeric (startsOnlyNumber_of_isDigit hc)
      unfold startsNumber
      split
      · rename_i heq
        rw [(List.cons.inj heq).1] at hc; cases hc
      · rename_i heq
        rw [(List.cons.inj heq).1] at hc; cases hc
      · exact hu
    · exact next_eq_numeric rfl hu

def endsNumeric : List Char → Bool
  | [] => true
  | c :: _ => !isNameChar c && c != '\\' && c != '.' && c != '+' && c != '%'

lemma isNameChar_of_isDigit (h : c.isDigit) : isNameChar c := by
  rw [isNameChar,h,Bool.or_true]; rfl

lemma startsDigit_of_endsNumeric (h : endsNumeric rest) : startsDigit rest = false := by
  cases rest with
  | nil => rfl
  | cons c rest =>
    simp only [endsNumeric,and_eq_true,not_eq_true'] at h
    rw [startsDigit,eq_false_iff]
    intro hd
    rw [isNameChar_of_isDigit hd] at h
    exact absurd h.1.1.1.1 (by decide)

lemma spanName_of_endsNumeric (h : endsNumeric rest) : spanName rest = ([],rest) := by
  cases rest with
  | nil => rw [spanName]
  | cons c rest =>
    simp only [endsNumeric,and_eq_true,not_eq_true',bne_iff_ne] at h
    exact spanName_of_not_isNameChar h.1.1.1.1 h.1.1.1.2 rest

lemma startsIdent_of_endsNumeric (h : endsNumeric rest) : startsIdent rest = false := by
  cases rest with
  | nil => rfl
  | cons c rest =>
    rw [eq_false_iff]
    intro hi
    rcases head_of_startsIdent hi with rfl | rfl | hc
    · cases h
    · cases h
    · simp [endsNumeric,isNameChar,hc] at h

lemma spanSign_of_endsNumeric (h : endsNumeric rest) : spanSign rest = ([],rest) := by
  unfold spanSign
  split
  · cases h
  · cases h
  · rfl

lemma spanExponent_of_ne (h : (c == 'e' || c == 'E') = false) (rest : List Char) :
    spanExponent (c :: rest) = ([],c :: rest) := by
  rw [spanExponent,h]; rfl

lemma endsNumber_of_endsNumeric (h : endsNumeric rest) : endsNumber rest := by
  rw [endsNumber,startsDigit_of_endsNumeric h]
  cases rest with
  | nil => rfl
  | cons c rest =>
    have hl : (c == 'e' || c == 'E') = false := by
      rw [eq_false_iff,ne_eq,or_eq_true,beq_iff_eq,beq_iff_eq]
      rintro (rfl | rfl) <;> cases h
    have hp : c ≠ '.' := by
      rintro rfl
      cases h
    rw [spanExponent_of_ne hl]
    simpa using hp

end Lexer

namespace Written

/-- A character of a name stands for itself, or its text starts with no digit and no sign. -/
lemma nameChar_cases (c : Char) : nameChar c = [c] ∧ isNameChar c ∨
      ∃ d more, nameChar c = d :: more ∧ (d = '\\' ∨ d = '\uFFFD') := by
  unfold nameChar
  split
  · exact .inr ⟨_,_,rfl,.inr rfl⟩
  · split
    · exact .inr ⟨_,_,rfl,.inl rfl⟩
    · split
      · rename_i hn
        exact .inl ⟨rfl,hn⟩
      · exact .inr ⟨_,_,rfl,.inl rfl⟩

section
variable {s rest : List Char} (hrest : Lexer.endsNumeric rest = true)

include hrest

lemma startsDigit_nameChars (h : Lexer.startsDigit (nameChars s ++ rest)) : s.head?.any Char.isDigit := by
  cases s with
  | nil =>
    have hn := Lexer.startsDigit_of_endsNumeric hrest
    exact absurd h (by rw [nameChars,flatMap_nil,nil_append,hn]; decide)
  | cons c s =>
    rw [nameChars,flatMap_cons,append_assoc] at h
    obtain ⟨hc,-⟩ | ⟨d,more,hc,rfl | rfl⟩ := nameChar_cases c
    · rw [hc] at h
      exact h
    · rw [hc] at h; cases h
    · rw [hc] at h; cases h

/-- The text of a name starts with digits, a hyphen before them or not, only if the name does. -/
lemma signedDigit_nameChars (h : Lexer.startsDigit (Lexer.spanSign (nameChars s ++ rest)).2) :
    s.head?.any Char.isDigit ∨ ∃ more, s = '-' :: more ∧ more.head?.any Char.isDigit := by
  cases s with
  | nil =>
    rw [nameChars,flatMap_nil,nil_append,Lexer.spanSign_of_endsNumeric hrest,Lexer.startsDigit_of_endsNumeric hrest] at h
    cases h
  | cons c s =>
    have ht : nameChars (c :: s) ++ rest = nameChar c ++ (nameChars s ++ rest) := by
      rw [nameChars,flatMap_cons,append_assoc,nameChars]
    rw [ht] at h
    obtain ⟨hc,hn⟩ | ⟨d,more,hc,rfl | rfl⟩ := nameChar_cases c
    · rw [hc,singleton_append] at h
      unfold Lexer.spanSign at h
      split at h
      · rename_i heq
        rw [(List.cons.inj heq).1] at hn; cases hn
      · rename_i heq
        obtain ⟨rfl,rfl⟩ := List.cons.inj heq
        exact .inr ⟨s,rfl,startsDigit_nameChars hrest h⟩
      · exact .inl h
    · rw [hc] at h; cases h
    · rw [hc] at h; cases h

lemma spanExponent_nameChars {c : Char} (hc : looksLikeExponent (c :: s) = false) :
    spanExponent (c :: (nameChars s ++ rest)) = ([],c :: (nameChars s ++ rest)) := by
  rw [spanExponent,if_neg]
  intro he
  rw [and_eq_true] at he
  have hl : looksLikeExponent (c :: s) := by
    rcases signedDigit_nameChars hrest he.2 with hdg | ⟨more,rfl,hdg⟩
    · cases s with
      | nil => cases hdg
      | cons d s =>
        have hd : d.isDigit := hdg
        simp [looksLikeExponent,he.1,hd]
    · simp [looksLikeExponent,he.1,hdg]
  rw [hl] at hc; cases hc

lemma spanExponent_identifier {u : String} (h : looksLikeExponent u.toList = false) (hu : u ≠ "") :
    (Lexer.spanExponent ((identifier u).toList ++ rest)).1 = [] := by
  unfold identifier
  split
  · rfl
  · rw [String.toList_ofList]; rfl
  · rw [String.toList_ofList]; rfl
  · rw [String.toList_ofList]
    cases hl : u.toList with
    | nil => exact absurd (String.toList_eq_nil_iff.mp hl) hu
    | cons c more =>
      rw [hl] at h
      rw [leadingName]
      split
      · rfl
      · rw [nameChars,flatMap_cons,append_assoc]
        obtain ⟨hc,-⟩ | ⟨d,tail,hc,rfl | rfl⟩ := nameChar_cases c
        · rw [hc]
          exact congrArg Prod.fst (spanExponent_nameChars hrest h)
        · rw [hc]; rfl
        · rw [hc]; rfl

lemma endsNumber_unit {u : String} (h : HasNoNull u.toList) (hu : u ≠ "") : endsNumber ((unit u).toList ++ rest) := by
  have hi := startsIdent_unit h hu rest
  have he : (spanExponent ((unit u).toList ++ rest)).1 = [] := by
    obtain ⟨hun,hl⟩ | ⟨c,more,-,-,hun⟩ := unit_cases u
    · rw [hun]
      exact spanExponent_identifier hrest hl hu
    · rw [hun]; rfl
  have hp : ((unit u).toList ++ rest).head? ≠ some '.' := by
    intro hh
    obtain ⟨more,hm⟩ := head?_eq_some_iff.mp hh
    rw [hm] at hi; cases hi
  rw [endsNumber,startsDigit_of_startsIdent hi,he]
  simpa using hp

end
end Written

namespace Lexer
variable {n : Numeral} (h : n.IsPlain) {rest : List Char}

include h

lemma next_number (hrest : endsNumeric rest) : next (n.text ++ rest) = ⟨.number,n.text,rest⟩ := by
  rw [next_text h,numeric,spanNumber_text h (endsNumber_of_endsNumeric hrest)]
  dsimp only
  rw [if_neg (by rw [startsIdent_of_endsNumeric hrest]; exact false_ne_true)]
  split
  · cases hrest
  · rfl

lemma next_percentage : next (n.text ++ '%' :: rest) = ⟨.percentage,n.text ++ ['%'],rest⟩ := by
  rw [next_text h,numeric,spanNumber_text h rfl]; rfl

lemma next_dimension {u : String} (hu : Written.HasNoNull u.toList) (hne : u ≠ "") (hrest : endsNumeric rest) :
    next (n.text ++ ((unit u).toList ++ rest)) = ⟨.dimension,n.text ++ (unit u).toList,rest⟩ := by
  have hs : spanName ((unit u).toList ++ rest) = ((unit u).toList,rest) := by
    rw [(isName_unit hu).span,spanName_of_endsNumeric hrest,append_nil]
  rw [next_text h,numeric,spanNumber_text h (endsNumber_unit hrest hu hne)]
  rw [if_pos (startsIdent_unit hu hne rest),hs]

end Lexer

namespace Token

lemma dimension_of_text {n : Numeral} (hn : n.IsPlain) {t : Token} {u : String}
    (hu : Written.HasNoNull u.toList) (hne : u ≠ "") (hk : t.kind = .dimension)
    (ht : t.text.toList = n.text ++ (Written.unit u).toList) : t.unit = u ∧ t.numeral = n.text := by
  have he : endsNumber ((Written.unit u).toList ++ []) := Written.endsNumber_unit rfl hu hne
  have hd := (Written.isName_unit hu).decode []
  rw [append_nil] at he hd
  rw [unit,numeral,hk,ht,spanNumber_text hn he]
  dsimp only
  rw [hd,Escape.decode,append_nil,String.ofList_toList]
  exact ⟨rfl,rfl⟩

section
variable {x : Float32} (hx : Binary32.magnitude x < Binary32.infinityBits)

include hx

lemma format_append_ne_nil (s : List Char) : (Number.format false x).toList ++ s ≠ [] := by
  obtain ⟨n,hn,ht,-⟩ := exists_numeral_format hx
  obtain ⟨c,more,hd,-⟩ := hn.head_digits
  rw [ht,Numeral.text,hd]
  simp

lemma scans_number : Scans endsNumeric [(.number,Number.format false x)] := by
  obtain ⟨n,hn,ht,-⟩ := exists_numeral_format hx
  apply scans_of_next
  · have hne := format_append_ne_nil hx []
    rw [append_nil] at hne
    exact hne
  · intro rest hrest
    rw [ht]
    exact next_number hn hrest

lemma scans_percentage : Scans anything [(.percentage,Number.format false x ++ "%")] := by
  obtain ⟨n,hn,ht,-⟩ := exists_numeral_format hx
  apply scans_of_next
  · rw [String.toList_append]
    exact format_append_ne_nil hx _
  · intro rest _
    rw [String.toList_append,ht,append_assoc]
    exact Lexer.next_percentage hn

lemma scans_dimension {u : String} (hu : Written.HasNoNull u.toList) (hne : u ≠ "") :
    Scans Lexer.endsNumeric [(.dimension,Number.format false x ++ Written.unit u)] := by
  obtain ⟨n,hn,ht,-⟩ := exists_numeral_format hx
  apply scans_of_next
  · rw [String.toList_append]
    exact format_append_ne_nil hx _
  · intro rest hrest
    rw [String.toList_append,ht,append_assoc]
    exact Lexer.next_dimension hn hu hne hrest

lemma number_of_format {t : Token} {rest : List Char} (ht : t.text.toList = (Number.format false x).toList ++ rest)
    (hrest : endsNumber rest) : (x == t.number) := by
  obtain ⟨n,hn,htx,hv⟩ := exists_numeral_format hx
  have hnm : t.numeral = n.text := by rw [numeral,ht,htx,spanNumber_text hn hrest]
  rw [number,hnm,hn.readNumeral?_text]
  exact hv

lemma unit_of_format {t : Token} {u : String} (hu : Written.HasNoNull u.toList) (hne : u ≠ "") (hk : t.kind = .dimension)
    (ht : t.text.toList = (Number.format false x).toList ++ (Written.unit u).toList) :
    t.unit = u := by
  obtain ⟨n,hn,htx,-⟩ := exists_numeral_format hx
  rw [htx] at ht
  exact (dimension_of_text hn hu hne hk ht).1

end
end Token
end Css
