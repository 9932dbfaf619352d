import Css.Token.Content
import Css.Token.Stream
import Css.Token.Written
import Mathlib.Tactic.Lemma

/-!
# Written tokens are read back

A character of a name is written as itself or as an escape, and either way it is one step of the lexer
and one character of the decoded name.
-/
namespace Css
open List Text Bool Lexer Written Escape Token

lemma isNewline_of_isHexDigit {c : Char} (h : isHexDigit c) : isNewline c = false := by
  rw [Bool.eq_false_iff]
  intro hn
  simp only [isNewline,Bool.or_eq_true,beq_iff_eq] at hn
  rcases hn with (rfl | rfl) | rfl <;> cases h

namespace Escape

lemma spanUpTo_append_of_all {p : Char → Bool} {n : Nat} {taken rest : List Char}
    (ht : taken.all p) (hl : taken.length ≤ n) (hr : rest.head?.any p = false) :
    spanUpTo p n (taken ++ rest) = (taken,rest) := by
  induction taken generalizing n with
  | nil =>
    cases n with
    | zero => rfl
    | succ n =>
      cases rest with
      | nil => rfl
      | cons c rest =>
        have hc : p c = false := hr
        simp [spanUpTo,hc]
  | cons c taken ih =>
    cases n with
    | zero => simp at hl
    | succ n =>
      rw [all_cons,and_eq_true] at ht
      have hl : taken.length ≤ n := by simpa using hl
      rw [cons_append,spanUpTo,if_pos ht.1,ih ht.2 hl]

lemma decode_cons {c : Char} (h : c ≠ '\\') (rest : List Char) : decode (c :: rest) = c :: decode rest :=
  decode.eq_5 c rest (fun hc => absurd hc h) (fun _ hc => absurd hc h) fun _ _ hc => absurd hc h

lemma decode_escape {c : Char} (hn : isNewline c = false) (hh : isHexDigit c = false)
    (rest : List Char) : decode ('\\' :: c :: rest) = c :: decode rest := by
  have hr : ∀ rest', c = '\r' → rest = '\n' :: rest' → False := by
    rintro rest' rfl
    cases hn
  rw [decode.eq_4 c rest hr,hn,hh]; rfl

lemma decode_digits {c : Char} {s ds rest : List Char} (hc : isHexDigit c)
    (hs : spanUpTo isHexDigit 6 (c :: s) = (ds,rest)) :
    decode ('\\' :: c :: s) = charOfCode (hexNumber ds) :: decode (dropSpace rest) := by
  have hn := isNewline_of_isHexDigit hc
  have hr : ∀ s', c = '\r' → s = '\n' :: s' → False := by
    rintro s' rfl
    cases hn
  rw [decode.eq_4 c s hr,hn,hc,hs]; rfl

lemma decode_code {ds : List Char} (hne : ds ≠ []) (hh : ds.all isHexDigit) (hl : ds.length ≤ 6) (rest : List Char) :
    decode ('\\' :: ds ++ ' ' :: rest) = charOfCode (hexNumber ds) :: decode rest := by
  cases ds with
  | nil => exact absurd rfl hne
  | cons c ds =>
    have hc : isHexDigit c := by
      rw [all_cons,Bool.and_eq_true] at hh
      exact hh.1
    exact decode_digits hc (spanUpTo_append_of_all hh hl rfl)

end Escape

namespace Written
variable {c : Char}

lemma isNewline_of_not_isEscapedControl (h : ¬isEscapedControl c) : isNewline c = false := by
  rw [eq_false_iff]
  intro hn
  simp only [isNewline,or_eq_true,beq_iff_eq] at hn
  rcases hn with (rfl | rfl) | rfl <;> exact h rfl

lemma toDigits_ascii : ∀ n < 128, n ≠ 0 → (Nat.toDigits 16 n).all isHexDigit ∧ (Nat.toDigits 16 n).length ≤ 6 ∧
      Nat.toDigits 16 n ≠ [] ∧ hexNumber (Nat.toDigits 16 n) = n := by
  decide

def IsCoded (c : Char) : Prop := c.toNat ≠ 0 ∧ c.toNat < 128

lemma isCoded_of_isEscapedControl (hc : c.toNat ≠ 0) (h : isEscapedControl c) : IsCoded c := by
  simp only [isEscapedControl,or_eq_true,decide_eq_true_eq,beq_iff_eq] at h
  exact ⟨hc,by omega⟩

lemma isCoded_of_isDigit (h : c.isDigit) : IsCoded c := by
  simp only [Char.isDigit,and_eq_true,decide_eq_true_eq] at h
  have h₁ : 48 ≤ c.toNat := h.1
  have h₂ : c.toNat ≤ 57 := h.2
  exact ⟨by omega,by omega⟩

lemma IsCoded.exists_digits (h : IsCoded c) :
    ∃ d ds, Nat.toDigits 16 c.toNat = d :: ds ∧ isHexDigit d ∧ ds.all isHexDigit := by
  obtain ⟨hh,-,hne,-⟩ := toDigits_ascii c.toNat h.2 h.1
  obtain ⟨d,ds,hd⟩ := exists_cons_of_ne_nil hne
  rw [hd,all_cons,and_eq_true] at hh
  exact ⟨d,ds,hd,hh⟩

lemma decode_codeEscape (h : IsCoded c) (rest : List Char) :
    Escape.decode (codeEscape c ++ rest) = c :: Escape.decode rest := by
  obtain ⟨hh,hl,hne,hn⟩ := toDigits_ascii c.toNat h.2 h.1
  have hc : Escape.charOfCode c.toNat = c := by
    have hv : c.toNat.isValidChar := c.valid
    simp [Escape.charOfCode,h.1,hv,Char.ofNat_toNat]
  have hd := Escape.decode_code hne hh hl rest
  rw [hn,hc] at hd
  rw [codeEscape,append_assoc]
  exact hd

lemma spanEscape_code (h : IsCoded c) (rest : List Char) :
    spanEscape (Nat.toDigits 16 c.toNat ++ ' ' :: rest) = (Nat.toDigits 16 c.toNat ++ [' '],rest) := by
  obtain ⟨hh,hl,-⟩ := toDigits_ascii c.toNat h.2 h.1
  have hs : Escape.spanUpTo isHexDigit 6 (Nat.toDigits 16 c.toNat ++ ' ' :: rest) =
      (Nat.toDigits 16 c.toNat,' ' :: rest) := Escape.spanUpTo_append_of_all hh hl rfl
  obtain ⟨d,ds,hd,hx,-⟩ := h.exists_digits
  rw [hd,cons_append] at hs ⊢
  rw [spanEscape,if_pos hx,hs]; rfl

structure IsName (text s : List Char) : Prop where
  span : ∀ rest, Lexer.spanName (text ++ rest) =
    (text ++ (Lexer.spanName rest).1,(Lexer.spanName rest).2)
  decode : ∀ rest, Escape.decode (text ++ rest) = s ++ Escape.decode rest

lemma isName_nil : IsName [] [] := ⟨fun _ => rfl,fun _ => rfl⟩

variable {s : List Char}

variable {text : List Char}

lemma IsName.append {text' s' : List Char} (h : IsName text s) (h' : IsName text' s') :
    IsName (text ++ text') (s ++ s') where
  span rest := by rw [append_assoc,h.span,h'.span,append_assoc]
  decode rest := by rw [append_assoc,h.decode,h'.decode,append_assoc]

lemma spanName_escape (h : isNewline c = false) (rest : List Char) : spanName ('\\' :: c :: rest) =
      ('\\' :: (spanEscape (c :: rest)).1 ++ (spanName (spanEscape (c :: rest)).2).1,
        (spanName (spanEscape (c :: rest)).2).2) := by
  have he : startsEscape ('\\' :: c :: rest) := by simp [startsEscape,h]
  rw [spanName,if_neg (by decide),if_pos he]

lemma isName_codeEscape (h : IsCoded c) : IsName (codeEscape c) [c] where
  span rest := by
    obtain ⟨d,ds,hd,hx,-⟩ := h.exists_digits
    have hs := spanEscape_code h rest
    rw [codeEscape,append_assoc,hd]
    rw [hd,cons_append] at hs
    have hst := spanName_escape (isNewline_of_isHexDigit hx) (ds ++ ' ' :: rest)
    rw [hs] at hst
    exact hst.trans (by simp)
  decode rest := decode_codeEscape h rest

lemma isName_char (h : isNameChar c) : IsName [c] [c] where
  span rest := by
    rw [singleton_append,spanName,if_pos h]; rfl
  decode rest := by
    have hne : c ≠ '\\' := by
      rintro rfl
      cases h
    exact decode_cons hne rest

lemma isName_escape (hn : isNewline c = false) (hh : isHexDigit c = false) : IsName ['\\',c] [c] where
  span rest := by
    have hsp : Lexer.spanEscape (c :: rest) = ([c],rest) := by
      rw [Lexer.spanEscape,if_neg (by simp [hh])]
    have hs := spanName_escape hn rest
    rw [hsp] at hs
    exact hs
  decode rest := Escape.decode_escape hn hh rest

lemma isNameChar_of_isHexDigit (h : isHexDigit c) : isNameChar c := by
  have ha (hc : c.isUpper ∨ c.isLower) : isNameChar c := by
    have hc : c.isAlpha := (Bool.or_eq_true _ _).mpr hc
    rw [isNameChar,isNameStart,hc]; rfl
  simp only [isHexDigit,Bool.or_eq_true,Bool.and_eq_true,decide_eq_true_eq] at h
  rcases h with (h | ⟨hl,hh⟩) | ⟨hl,hh⟩
  · rw [isNameChar,h,Bool.or_true]; rfl
  · refine ha (.inr ((Bool.and_eq_true _ _).mpr ⟨decide_eq_true hl,decide_eq_true ?_⟩))
    exact UInt32.le_trans hh (by decide)
  · exact ha (.inl (decide_eq_true ⟨hl,UInt32.le_trans hh (by decide)⟩))

lemma isName_nameChar (hc : c.toNat ≠ 0) : IsName (nameChar c) [c] := by
  unfold nameChar
  rw [if_neg hc]
  split
  · rename_i hcn
    exact isName_codeEscape (isCoded_of_isEscapedControl hc hcn)
  · rename_i hcn
    split
    · rename_i hn
      exact isName_char hn
    · rename_i hn
      refine isName_escape (isNewline_of_not_isEscapedControl hcn) ?_
      rw [eq_false_iff]
      exact fun hh => hn (isNameChar_of_isHexDigit hh)

def HasNoNull (s : List Char) : Prop := ∀ c ∈ s, c.toNat ≠ 0

instance (s : List Char) : Decidable (HasNoNull s) := List.decidableBAll (fun c : Char => c.toNat ≠ 0) s

lemma isName_nameChars (h : HasNoNull s) : IsName (nameChars s) s := by
  induction s with
  | nil => exact isName_nil
  | cons c s ih =>
    have hf := isName_nameChar (h c mem_cons_self)
    exact hf.append (ih fun d hd => h d (mem_cons_of_mem c hd))

lemma isName_leadingName (h : HasNoNull s) : IsName (leadingName s) s := by
  cases s with
  | nil => exact isName_nil
  | cons c s =>
    rw [leadingName]
    split
    · rename_i hdg
      have hr := isName_nameChars fun d hd => h d (mem_cons_of_mem c hd)
      exact (isName_codeEscape (isCoded_of_isDigit hdg)).append hr
    · exact isName_nameChars h

lemma isName_identifier {s : String} (h : HasNoNull s.toList) : IsName (identifier s).toList s.toList := by
  have hy : IsName ['-'] ['-'] := isName_char rfl
  unfold identifier
  split
  · rename_i hs
    rw [hs]
    exact isName_escape rfl rfl
  · rename_i rest hs
    rw [hs] at h ⊢
    rw [String.toList_ofList]
    have hr : HasNoNull rest := fun c hc => h c (by simp [hc])
    exact hy.append (hy.append (isName_nameChars hr))
  · rename_i rest hs
    rw [hs] at h ⊢
    rw [String.toList_ofList]
    exact hy.append (isName_leadingName fun c hc => h c (mem_cons_of_mem _ hc))
  · rw [String.toList_ofList]
    exact isName_leadingName h

def startsPart (s : List Char) : Bool := Lexer.startsName s || Lexer.startsEscape s

lemma startsPart_codeEscape (h : IsCoded c) (rest : List Char) : startsPart (codeEscape c ++ rest) := by
  obtain ⟨d,ds,hd,hx,-⟩ := h.exists_digits
  simp [codeEscape,hd,startsPart,Lexer.startsEscape,isNewline_of_isHexDigit hx]

lemma startsPart_leadingName (h : c.toNat ≠ 0) (hc : c ≠ '-')
    (rest : List Char) : startsPart (leadingName (c :: s) ++ rest) := by
  rw [leadingName]
  split
  · rename_i hd
    rw [append_assoc]
    exact startsPart_codeEscape (isCoded_of_isDigit hd) _
  · rename_i hd
    rw [nameChars,flatMap_cons,append_assoc]
    unfold nameChar
    rw [if_neg h]
    split
    · rename_i hcn
      exact startsPart_codeEscape (isCoded_of_isEscapedControl h hcn) _
    · rename_i hcn
      split
      · rename_i hn
        have hs : isNameStart c := by simpa [isNameChar,hd,hc] using hn
        simp [startsPart,Lexer.startsName,hs]
      · simp [startsPart,Lexer.startsEscape,isNewline_of_not_isEscapedControl hcn]

lemma startsIdent_of_startsPart (h : startsPart s) : startsIdent s := by
  rw [startsPart,or_eq_true] at h
  unfold startsIdent
  split
  · rcases h with h | h
    · cases h
    · cases h
  · rcases h with h | h
    · cases h
    · exact h
  · rename_i hh hs
    rcases h with h | h
    · exact h
    · unfold startsEscape at h
      split at h
      · exact absurd rfl (hs _)
      · exact absurd rfl (hs _)
      · cases h

lemma startsIdent_identifier {s : String} (h : HasNoNull s.toList) (hs : s ≠ "")
    (rest : List Char) : Lexer.startsIdent ((identifier s).toList ++ rest) := by
  unfold identifier
  split
  · rfl
  · rename_i post heq
    rw [String.toList_ofList]
    simp [Lexer.startsIdent]
  · rename_i post ho ht heq
    rw [String.toList_ofList]
    cases post with
    | nil => exact absurd rfl ho
    | cons c post =>
      have hc : c ≠ '-' := by
        rintro rfl
        exact ht post rfl
      rw [heq] at h
      have hp := startsPart_leadingName (s := post) (h c (by simp)) hc rest
      rw [startsPart] at hp
      rw [cons_append,Lexer.startsIdent,Bool.or_right_comm,hp,Bool.true_or]
  · rename_i ho ht hth
    rw [String.toList_ofList]
    cases hl : s.toList with
    | nil => exact absurd (String.toList_eq_nil_iff.mp hl) hs
    | cons c post =>
      rw [hl] at h ho ht hth
      have hc : c ≠ '-' := by
        rintro rfl
        exact hth post rfl
      exact startsIdent_of_startsPart (startsPart_leadingName (h c (by simp)) hc rest)

lemma isCoded_of_looksLikeExponent (h : looksLikeExponent (c :: s)) : IsCoded c := by
  unfold looksLikeExponent at h
  rw [and_eq_true,or_eq_true,beq_iff_eq,beq_iff_eq] at h
  rcases h.1 with rfl | rfl
  · exact ⟨by decide,by decide⟩
  · exact ⟨by decide,by decide⟩

lemma unit_cases (s : String) : unit s = identifier s ∧ looksLikeExponent s.toList = false ∨
      ∃ c rest, s.toList = c :: rest ∧ looksLikeExponent (c :: rest) ∧
        (unit s).toList = codeEscape c ++ nameChars rest := by
  unfold unit
  split
  · rename_i c rest hs
    rw [hs]
    split
    · rename_i he
      exact .inr ⟨c,rest,rfl,he,String.toList_ofList⟩
    · rename_i he
      exact .inl ⟨rfl,eq_false_iff.mpr he⟩
  · rename_i hs
    rw [hs]
    exact .inl ⟨rfl,rfl⟩

lemma isName_unit {s : String} (h : HasNoNull s.toList) : IsName (unit s).toList s.toList := by
  obtain ⟨hu,-⟩ | ⟨c,rest,hs,he,hu⟩ := unit_cases s
  · rw [hu]
    exact isName_identifier h
  · rw [hs] at h
    rw [hu,hs]
    have hr : HasNoNull rest := fun d hd => h d (mem_cons_of_mem c hd)
    exact (isName_codeEscape (isCoded_of_looksLikeExponent he)).append (isName_nameChars hr)

lemma startsIdent_unit {s : String} (h : HasNoNull s.toList) (hs : s ≠ "") (rest : List Char) :
    Lexer.startsIdent ((unit s).toList ++ rest) := by
  obtain ⟨hu,-⟩ | ⟨c,more,-,he,hu⟩ := unit_cases s
  · rw [hu]
    exact startsIdent_identifier h hs rest
  · rw [hu,append_assoc]
    have hc := isCoded_of_looksLikeExponent he
    exact startsIdent_of_startsPart (startsPart_codeEscape hc _)

/-- Text that the lexer takes as a stretch of a string in double quotes, and that denotes `s`. -/
structure IsQuoted (text s : List Char) : Prop where
  quoted : ∀ rest, Lexer.quoted '\x22' (text ++ rest) =
    { Lexer.quoted '\x22' rest with text := text ++ (Lexer.quoted '\x22' rest).text }
  untilQuote : ∀ rest, Token.untilQuote '\x22' (text ++ rest) = text ++ Token.untilQuote '\x22' rest
  decode : ∀ rest, Escape.decode (text ++ rest) = s ++ Escape.decode rest

lemma isQuoted_nil : IsQuoted [] [] := ⟨fun _ => rfl,fun _ => rfl,fun _ => rfl⟩

lemma IsQuoted.append {text' s' : List Char} (h : IsQuoted text s)
    (h' : IsQuoted text' s') : IsQuoted (text ++ text') (s ++ s') where
  quoted rest := by rw [append_assoc,h.quoted,h'.quoted,append_assoc]
  untilQuote rest := by rw [append_assoc,h.untilQuote,h'.untilQuote,append_assoc]
  decode rest := by rw [append_assoc,h.decode,h'.decode,append_assoc]

def IsPlainChar (c : Char) : Prop := c ≠ '\x22' ∧ c ≠ '\\' ∧ isNewline c = false

lemma quoted_cons (h : IsPlainChar c) (rest : List Char) : quoted '\x22' (c :: rest) =
      { quoted '\x22' rest with text := c :: (quoted '\x22' rest).text } := by
  obtain ⟨hq,hs,hn⟩ := h
  rw [quoted.eq_4 _ _ _ (fun _ hc => absurd hc hs) (fun _ _ hc => absurd hc hs),
    if_neg (by simpa using hq),if_neg (by simp [hn])]

lemma untilQuote_cons (h : IsPlainChar c) (rest : List Char) :
    untilQuote '\x22' (c :: rest) = c :: untilQuote '\x22' rest := by
  obtain ⟨hq,hs,-⟩ := h
  rw [untilQuote.eq_3 _ _ _ (fun _ _ hc => absurd hc hs),if_neg (by simpa using hq)]

lemma isQuoted_char (h : IsPlainChar c) : IsQuoted [c] [c] where
  quoted rest := quoted_cons h rest
  untilQuote rest := untilQuote_cons h rest
  decode rest := decode_cons h.2.1 rest

lemma isQuoted_escape (hn : isNewline c = false) (hh : isHexDigit c = false) : IsQuoted ['\\',c] [c] where
  quoted rest := by
    have hr : ∀ rest', c = '\r' → rest = '\n' :: rest' → False := by
      rintro rest' rfl
      cases hn
    exact Lexer.quoted.eq_3 _ c rest hr
  untilQuote rest := rfl
  decode rest := Escape.decode_escape hn hh rest

lemma isPlainChar_of_isHexDigit (h : isHexDigit c) : IsPlainChar c := by
  refine ⟨?_,?_,isNewline_of_isHexDigit h⟩
  · rintro rfl
    cases h
  · rintro rfl
    cases h

/-- Digits and the blank behind them stand for themselves, so that only the first needs its backslash. -/
lemma quoted_append_of_plain (h : ∀ c ∈ text, IsPlainChar c) (rest : List Char) : quoted '\x22' (text ++ rest) =
      { quoted '\x22' rest with text := text ++ (quoted '\x22' rest).text } ∧
    untilQuote '\x22' (text ++ rest) = text ++ untilQuote '\x22' rest := by
  induction text with
  | nil => exact ⟨rfl,rfl⟩
  | cons c text ih =>
    have hc := h c mem_cons_self
    obtain ⟨hq,hu⟩ := ih fun d hd => h d (mem_cons_of_mem c hd)
    rw [cons_append,quoted_cons hc,untilQuote_cons hc,hq,hu]
    exact ⟨rfl,rfl⟩

lemma isQuoted_codeEscape (h : IsCoded c) : IsQuoted (codeEscape c) [c] := by
  obtain ⟨d,ds,hdg,hh,hds⟩ := h.exists_digits
  have hd := decode_codeEscape h
  rw [codeEscape,hdg] at hd ⊢
  have hp : ∀ x ∈ ds ++ [' '], IsPlainChar x := by
    intro x hx
    rcases mem_append.mp hx with hx | hx
    · exact isPlainChar_of_isHexDigit (all_eq_true.mp hds x hx)
    · rw [mem_singleton.mp hx]
      exact ⟨by decide,by decide,rfl⟩
  have hr : ∀ s rest', d = '\r' → s = '\n' :: rest' → False := by
    rintro s rest' rfl
    cases hh
  refine ⟨fun rest => ?_,fun rest => ?_,hd⟩
  · obtain ⟨hq,-⟩ := quoted_append_of_plain hp rest
    have hs := quoted.eq_3 '\x22' d (ds ++ [' '] ++ rest) (hr _)
    rw [hq] at hs
    exact hs
  · obtain ⟨-,hu⟩ := quoted_append_of_plain hp rest
    have hs := untilQuote.eq_2 '\x22' d (ds ++ [' '] ++ rest)
    rw [hu] at hs
    exact hs

lemma isQuoted_stringChar (hc : c.toNat ≠ 0) : IsQuoted (stringChar c) [c] := by
  unfold stringChar
  rw [if_neg hc]
  split
  · rename_i hq
    rw [eq_of_beq hq]
    exact isQuoted_escape rfl rfl
  · rename_i hq
    split
    · rename_i hs
      rw [eq_of_beq hs]
      exact isQuoted_escape rfl rfl
    · rename_i hs
      split
      · rename_i hcn
        exact isQuoted_codeEscape (isCoded_of_isEscapedControl hc hcn)
      · rename_i hcn
        refine isQuoted_char ⟨?_,?_,isNewline_of_not_isEscapedControl hcn⟩
        · simpa using hq
        · simpa using hs

lemma isQuoted_flatMap (h : HasNoNull s) : IsQuoted (s.flatMap stringChar) s := by
  induction s with
  | nil => exact isQuoted_nil
  | cons c s ih =>
    have hf := isQuoted_stringChar (h c mem_cons_self)
    exact hf.append (ih fun d hd => h d (mem_cons_of_mem c hd))

end Written

namespace Lexer

def endsName : List Char → Bool
  | [] => true
  | c :: _ => !isNameChar c && c != '\\' && c != '(' && c != '>'

variable {c : Char}

lemma spanName_of_not_isNameChar (hc : isNameChar c = false) (hs : c ≠ '\\')
    (rest : List Char) : spanName (c :: rest) = ([],c :: rest) := by
  have he : startsEscape (c :: rest) = false := by
    unfold startsEscape
    split
    · rename_i heq
      exact absurd (List.cons.inj heq).1 hs
    · rename_i heq
      exact absurd (List.cons.inj heq).1 hs
    · rfl
  rw [spanName,if_neg (by simp [hc]),if_neg (by simp [he])]

lemma spanName_of_endsName {rest : List Char} (h : endsName rest) : spanName rest = ([],rest) := by
  cases rest with
  | nil => rw [spanName]
  | cons c rest =>
    simp only [endsName,and_eq_true,not_eq_true',bne_iff_ne] at h
    exact spanName_of_not_isNameChar h.1.1.1 h.1.1.2 rest

lemma isNameStart_digit : ∀ n < 58, (Char.ofNat n).isDigit → isNameStart (Char.ofNat n) = false := by
  decide

lemma isDigit_of_isNameStart (h : isNameStart c) : c.isDigit = false := by
  rw [eq_false_iff]
  intro hd
  have hl : c.toNat < 58 := by
    simp only [Char.isDigit,and_eq_true,decide_eq_true_eq] at hd
    have : c.toNat ≤ 57 := hd.2
    omega
  have hs := isNameStart_digit c.toNat hl
  rw [Char.ofNat_toNat,h] at hs
  cases hs hd

lemma ne_of_isNameStart {d : Char} (h : isNameStart c) (hd : isNameStart d = false) : (c == d) = false := by
  rw [beq_eq_false_iff_ne]
  rintro rfl
  rw [h] at hd; cases hd

lemma isSpace_of_isNameStart (h : isNameStart c) : isSpace c = false := by
  rw [isSpace,isNewline,ne_of_isNameStart h rfl,ne_of_isNameStart h rfl,ne_of_isNameStart h rfl,
    ne_of_isNameStart h rfl,ne_of_isNameStart h rfl]
  rfl

lemma punctuation?_of_isNameStart (h : isNameStart c) : punctuation? c = none := by
  have hne {d : Char} (hd : isNameStart d = false) : (c == d) → False := by
    rw [ne_of_isNameStart h hd]
    exact false_ne_true
  unfold punctuation?
  repeat rw [if_neg (hne rfl)]

variable {s : List Char}

lemma startsUnsigned_of_startsName (h : startsName s) : startsUnsigned s = false := by
  unfold startsUnsigned
  split
  · cases h
  · cases s with
    | nil => rfl
    | cons c s => exact isDigit_of_isNameStart h

lemma startsUnsigned_of_startsEscape (h : startsEscape s) : startsUnsigned s = false := by
  unfold startsEscape at h
  split at h
  · rfl
  · rfl
  · cases h

lemma startsNumber_of_startsIdent (h : startsIdent s) : startsNumber s = false := by
  unfold startsIdent at h
  split at h
  · rename_i s
    rw [startsNumber]
    rw [or_eq_true,or_eq_true] at h
    rcases h with (h | h) | h
    · exact startsUnsigned_of_startsName h
    · cases s with
      | nil => cases h
      | cons c s =>
        rw [head?_cons,beq_iff_eq,Option.some.injEq] at h
        rw [h]; rfl
    · exact startsUnsigned_of_startsEscape h
  · rfl
  · rename_i hh hs
    unfold startsNumber
    split
    · cases h
    · cases h
    · exact startsUnsigned_of_startsName h

lemma head_of_startsIdent (h : startsIdent (c :: s)) : c = '-' ∨ c = '\\' ∨ isNameStart c := by
  unfold startsIdent at h
  split at h
  · rename_i heq
    exact .inl (List.cons.inj heq).1
  · rename_i heq
    exact .inr (.inl (List.cons.inj heq).1)
  · exact .inr (.inr h)

lemma isSpace_of_startsIdent (h : startsIdent (c :: s)) : isSpace c = false := by
  rcases head_of_startsIdent h with rfl | rfl | hc
  · rfl
  · rfl
  · exact isSpace_of_isNameStart hc

lemma startsDigit_of_startsIdent (h : startsIdent s) : startsDigit s = false := by
  cases s with
  | nil => rfl
  | cons c s =>
    rcases head_of_startsIdent h with rfl | rfl | hc
    · rfl
    · rfl
    · exact isDigit_of_isNameStart hc

lemma next_of_startsIdent (h : startsIdent s) (ha : "-->".toList.isPrefixOf s = false) : next s = identLike s := by
  cases s with
  | nil => cases h
  | cons c s =>
    have hh := head_of_startsIdent h
    have hch : isSpace c = false ∧ (c == '\x22') = false ∧ (c == '\x27') = false ∧
        (c == '#') = false ∧ (c == '@') = false ∧ punctuation? c = none ∧ (c == '<') = false := by
      rcases hh with rfl | rfl | hc
      · decide
      · decide
      · refine ⟨isSpace_of_isNameStart hc,ne_of_isNameStart hc rfl,ne_of_isNameStart hc rfl,
          ne_of_isNameStart hc rfl,ne_of_isNameStart hc rfl,?_,ne_of_isNameStart hc rfl⟩
        exact punctuation?_of_isNameStart hc
    obtain ⟨hs,hq,hq',hhs,hat,hp,hl⟩ := hch
    have ho : "<!--".toList.isPrefixOf (c :: s) = false := by
      rw [Bool.eq_false_iff]
      intro ho
      rw [show "<!--".toList = '<' :: "!--".toList from rfl,isPrefixOf_cons_cons,Bool.and_eq_true,beq_iff_eq] at ho
      rw [← ho.1] at hl; cases hl
    rw [next,hs,hq,hq',hhs,hat,hp]
    simp only [Bool.or_self,Bool.false_eq_true,if_false,startsNumber_of_startsIdent h,ha,ho,h,if_true]

lemma not_isPrefixOf_arrow {text rest : List Char}
    (hs : spanName (text ++ rest) = (text,rest)) (hr : rest.head? ≠ some '>') :
    "-->".toList.isPrefixOf (text ++ rest) = false := by
  rw [eq_false_iff]
  intro ha
  obtain ⟨post,haf⟩ := isPrefixOf_iff_prefix.mp ha
  have ha : spanName ('-' :: '-' :: '>' :: post) = (['-','-'],'>' :: post) := by
    rw [spanName,if_pos (by decide),spanName,if_pos (by decide),spanName_of_not_isNameChar rfl (by decide)]
  have heq : '-' :: '-' :: '>' :: post = text ++ rest := haf
  rw [heq,hs,Prod.mk.injEq] at ha
  rw [ha.2] at hr
  exact hr rfl

section
variable {s : String} {rest : List Char}

lemma spanName_identifier (h : Written.HasNoNull s.toList) (hr : spanName rest = ([],rest)) :
    spanName ((identifier s).toList ++ rest) = ((identifier s).toList,rest) := by
  rw [(isName_identifier h).span,hr,append_nil]

lemma next_identifier (h : Written.HasNoNull s.toList) (hs : s ≠ "") (hr : endsName rest) :
    next ((identifier s).toList ++ rest) = ⟨.ident,(identifier s).toList,rest⟩ := by
  have hsp := spanName_identifier h (spanName_of_endsName hr)
  have ha : rest.head? ≠ some '>' := by
    intro hh
    obtain ⟨post,rfl⟩ := head?_eq_some_iff.mp hh
    cases hr
  rw [next_of_startsIdent (startsIdent_identifier h hs rest) (not_isPrefixOf_arrow hsp ha),identLike,hsp]
  cases rest with
  | nil => rfl
  | cons c rest =>
    have hp : c ≠ '(' := by
      rintro rfl
      cases hr
    dsimp only
    split
    · rename_i heq
      exact absurd (List.cons.inj heq).1 hp
    · rfl

lemma next_function (h : Written.HasNoNull s.toList) (hs : s ≠ "") (hu : sameLetters (identifier s) "url" = false) :
    next ((identifier s).toList ++ '(' :: rest) = ⟨.function,(identifier s).toList ++ ['('],rest⟩ := by
  have hp : spanName ('(' :: rest) = ([],'(' :: rest) := spanName_of_not_isNameChar rfl (by decide) rest
  have hsp := spanName_identifier h hp
  rw [next_of_startsIdent (startsIdent_identifier h hs _) (not_isPrefixOf_arrow hsp (by simp)),identLike,hsp]
  simp only [String.ofList_toList,hu,Bool.false_and,Bool.false_eq_true,if_false]

lemma next_hash (h : Written.HasNoNull s.toList) (hs : s ≠ "") (hr : endsName rest) :
    next ('#' :: (identifier s).toList ++ rest) = ⟨.idHash,'#' :: (identifier s).toList,rest⟩ := by
  have hsp := spanName_identifier h (spanName_of_endsName hr)
  have hi := startsIdent_identifier h hs rest
  have hn : (((identifier s).toList ++ rest).head?.any isNameChar || startsEscape ((identifier s).toList ++ rest)) := by
    generalize (identifier s).toList ++ rest = text at hi
    cases text with
    | nil => cases hi
    | cons c text =>
      rcases head_of_startsIdent hi with rfl | rfl | hc
      · rfl
      · exact hi
      · simp [isNameChar,hc]
  have hh : next ('#' :: (identifier s).toList ++ rest) = hashLexeme ((identifier s).toList ++ rest) := rfl
  rw [hh,hashLexeme,if_pos hn,hsp,if_pos hi]

end

lemma next_string {s : String} (h : Written.HasNoNull s.toList) (rest : List Char) :
    next ((Written.string s).toList ++ rest) = ⟨.string,(Written.string s).toList,rest⟩ := by
  have hs : next ((Written.string s).toList ++ rest) =
      let contents := quoted '\x22' (s.toList.flatMap Written.stringChar ++ '\x22' :: rest)
      { contents with text := '\x22' :: contents.text } := by
    rw [Written.string,String.toList_ofList,append_assoc]; rfl
  rw [hs,(Written.isQuoted_flatMap h).quoted,Written.string,String.toList_ofList]; rfl

end Lexer

namespace Token
variable {s : String} (h : Written.HasNoNull s.toList)

include h in
lemma name_of_rawName {t : Token} (hr : t.rawName = (identifier s).toList) : t.name = s := by
  have hd := (isName_identifier h).decode []
  rw [append_nil] at hd
  rw [name,hr,hd,decode,append_nil,String.ofList_toList]

include h in
lemma name_of_identifier {t : Token} (hk : t.kind = .ident) (ht : t.text = identifier s) : t.name = s :=
  name_of_rawName h (by rw [rawName,hk,ht])

include h in
lemma name_of_function {t : Token} (hk : t.kind = .function) (ht : t.text = identifier s ++ "(") : t.name = s := by
  refine name_of_rawName h ?_
  rw [rawName,hk,ht,String.toList_append,reverse_append]
  exact reverse_reverse _

include h in
lemma name_of_hash {t : Token} (hk : t.kind = .idHash) (ht : t.text = "#" ++ identifier s) : t.name = s := by
  refine name_of_rawName h ?_
  rw [rawName,hk,ht,String.toList_append]; rfl

include h in
lemma stringValue_of_string {t : Token} (ht : t.text = string s) : t.stringValue = s := by
  have hq := isQuoted_flatMap h
  have hu := hq.untilQuote ['\x22']
  have hd := hq.decode []
  have hb : t.text.toList = '\x22' :: (s.toList.flatMap stringChar ++ ['\x22']) := by
    rw [ht,string,String.toList_ofList]; rfl
  rw [append_nil] at hd
  rw [stringValue,hb]
  dsimp only
  rw [hu]
  have he : untilQuote '\x22' ['\x22'] = [] := rfl
  rw [he,append_nil,hd,decode,append_nil,String.ofList_toList]

end Token
end Css
