import Css.Proofs.Value.Reading
import Css.Proofs.Value.Shifted

/-!
# Ranges of code points

The lexer cuts the text of a range into numbers, dimensions, identifiers and delimiters, in ways that
depend on where its signs and its letters stand.
-/
namespace Css
open List Text Token Bool
open String (ofList toList_ofList)

def Value.isRangeChar (c : Char) : Bool := isHexDigit c || c == '+' || c == '-' || c == '?'

def Value.isBreak (c : Char) : Bool := c == ',' || isSpace c

namespace Lexer
open Value

def RangeAhead (s : List Char) : Prop := (s.dropWhile isRangeChar).head?.all isBreak = true

variable {c : Char} {s : List Char}

lemma isRangeChar_of_isDigit (h : c.isDigit) : isRangeChar c := by
  rw [isRangeChar,isHexDigit,h]; rfl

lemma isRangeChar_of_isBreak (h : isBreak c) : isRangeChar c = false ∧ isNameChar c = false := by
  simp only [isBreak,isSpace,isNewline,or_eq_true,beq_iff_eq] at h
  rcases h with rfl | (rfl | rfl) | (rfl | rfl) | rfl <;> exact ⟨rfl,rfl⟩

namespace RangeAhead
variable {c d : Char} {s text rest : List Char}

lemma head (h : RangeAhead (c :: s)) : isRangeChar c ∨ isBreak c := by
  cases hc : isRangeChar c with
  | true => exact .inl rfl
  | false =>
    rw [RangeAhead,dropWhile_cons_of_neg (by rw [hc]; exact false_ne_true)] at h
    exact .inr h

lemma ne (h : RangeAhead (c :: s)) (hd : (isRangeChar d || isBreak d) = false) : c ≠ d := by
  rintro rfl
  obtain ⟨hr,hb⟩ := or_eq_false_iff.mp hd
  rcases h.head with hc | hc
  · rw [hc] at hr; cases hr
  · rw [hc] at hb; cases hb

lemma behind (h : RangeAhead s) (ha : text ++ rest = s) (ht : ∀ c ∈ text, isRangeChar c) : RangeAhead rest := by
  subst ha
  rw [RangeAhead,dropWhile_append_of_pos ht] at h
  exact h

end RangeAhead

lemma isRangeChar_of_mem_spanName (h : RangeAhead s) : ∀ c ∈ (spanName s).1, isRangeChar c := by
  induction s with
  | nil =>
    rw [spanName]
    exact forall_mem_nil _
  | cons c s ih =>
    cases hn : isNameChar c with
    | false =>
      rw [spanName_of_not_isNameChar hn (h.ne rfl)]
      exact forall_mem_nil _
    | true =>
      have hc : isRangeChar c := by
        refine h.head.resolve_right fun hb => ?_
        rw [(isRangeChar_of_isBreak hb).2] at hn; cases hn
      have hr : RangeAhead s := h.behind singleton_append (forall_mem_singleton.mpr hc)
      rw [spanName,if_pos hn]
      exact forall_mem_cons.mpr ⟨hc,ih hr⟩

lemma isRangeChar_of_mem_spanSign (s : List Char) : ∀ c ∈ (spanSign s).1, isRangeChar c := by
  unfold spanSign
  split
  · exact forall_mem_singleton.mpr rfl
  · exact forall_mem_singleton.mpr rfl
  · exact forall_mem_nil _

lemma isRangeChar_of_mem_spanDigits (s : List Char) : ∀ c ∈ (spanDigits s).1, isRangeChar c :=
  fun _ hc => isRangeChar_of_isDigit (all_eq_true.mp all_takeWhile _ hc)

lemma isRangeChar_of_mem_spanExponent (s : List Char) : ∀ c ∈ (spanExponent s).1, isRangeChar c := by
  unfold spanExponent
  split
  · exact forall_mem_nil _
  · rename_i c s
    dsimp only
    split
    · rename_i he
      have hc : isRangeChar c := by
        simp only [and_eq_true,or_eq_true,beq_iff_eq] at he
        rcases he.1 with rfl | rfl <;> rfl
      refine forall_mem_append.mpr ⟨forall_mem_cons.mpr ⟨hc,?_⟩,?_⟩
      · exact isRangeChar_of_mem_spanSign s
      · exact isRangeChar_of_mem_spanDigits _
    · exact forall_mem_nil _

lemma isRangeChar_of_mem_spanNumber (h : RangeAhead s) : ∀ c ∈ (spanNumber s).1, isRangeChar c := by
  have hs := isRangeChar_of_mem_spanSign s
  have hd := isRangeChar_of_mem_spanDigits (spanSign s).2
  have hb : RangeAhead (spanDigits (spanSign s).2).2 := (h.behind (spanSign_append s) hs).behind (spanDigits_append _) hd
  -- No point follows the digits.
  have hf : (spanFraction (spanDigits (spanSign s).2).2).1 = [] := by
    unfold spanFraction
    split
    · rename_i hp
      rw [hp] at hb
      exact absurd rfl (hb.ne rfl)
    · rfl
  simp only [spanNumber,hf,append_nil,forall_mem_append]
  exact ⟨⟨hs,hd⟩,isRangeChar_of_mem_spanExponent _⟩

structure IsRangeLexeme (lexeme : Lexeme) : Prop where
  kind : lexeme.kind = .number ∨ lexeme.kind = .dimension ∨ lexeme.kind = .ident ∨ lexeme.kind = .delim
  text : ∀ c ∈ lexeme.text, isRangeChar c = true

lemma isRangeLexeme_numeric (h : RangeAhead s) : IsRangeLexeme (numeric s) := by
  have hn := isRangeChar_of_mem_spanNumber h
  have hb := h.behind (spanNumber_append s) hn
  unfold numeric
  dsimp only
  split
  · refine ⟨.inr (.inl rfl),forall_mem_append.mpr ⟨hn,?_⟩⟩
    exact isRangeChar_of_mem_spanName hb
  · split
    · rename_i hp
      rw [hp] at hb
      exact absurd rfl (hb.ne rfl)
    · exact ⟨.inl rfl,hn⟩

lemma isRangeLexeme_identLike (h : RangeAhead s) : IsRangeLexeme (identLike s) := by
  have hn := isRangeChar_of_mem_spanName h
  have hb := h.behind (spanName_append s) hn
  unfold identLike
  dsimp only
  split
  · rename_i hp
    rw [hp] at hb
    exact absurd rfl (hb.ne rfl)
  · exact ⟨.inr (.inr (.inl rfl)),hn⟩

lemma isRangeLexeme_next (h : RangeAhead (c :: s)) (hc : isRangeChar c) : IsRangeLexeme (next (c :: s)) := by
  have hne {d : Char} (hd : isRangeChar d = false) : ¬(c == d) := by
    intro heq
    rw [eq_of_beq heq,hd] at hc; cases hc
  have hs : ¬isSpace c := by
    intro hs
    have hb : isBreak c := by rw [isBreak,hs,Bool.or_true]
    rw [(isRangeChar_of_isBreak hb).1] at hc; cases hc
  have hpn : punctuation? c = none := by
    unfold punctuation?
    repeat rw [if_neg (hne rfl)]
  have hq : ¬(c == '\x22' || c == '\x27') := by
    rw [Bool.or_eq_true]
    exact not_or.mpr ⟨hne rfl,hne rfl⟩
  have hp (d : Char) (more : List Char) (hd : isRangeChar d = false) : ¬(d :: more).isPrefixOf (c :: s) := by
    intro ho
    rw [isPrefixOf_cons_cons,Bool.and_eq_true,beq_iff_eq] at ho
    exact hne hd (beq_iff_eq.mpr ho.1.symm)
  have hco : ¬"<!--".toList.isPrefixOf (c :: s) := hp '<' _ rfl
  have hcm : ¬"/*".toList.isPrefixOf (c :: s) := hp '/' _ rfl
  have hcd : ¬"-->".toList.isPrefixOf (c :: s) := by
    intro hcd
    obtain ⟨post,ha⟩ := isPrefixOf_iff_prefix.mp hcd
    have hh : ∀ d ∈ ['-','-'], isRangeChar d := all_eq_true.mp rfl
    have he : RangeAhead ('>' :: post) := h.behind ha hh
    exact he.ne rfl rfl
  rw [next,if_neg hs,if_neg hq,if_neg (hne rfl),if_neg (hne rfl),hpn]
  dsimp only
  by_cases hn : startsNumber (c :: s)
  · rw [if_pos hn]
    exact isRangeLexeme_numeric h
  · rw [if_neg hn,if_neg hcd,if_neg hco]
    by_cases hi : startsIdent (c :: s)
    · rw [if_pos hi]
      exact isRangeLexeme_identLike h
    · rw [if_neg hi,if_neg hcm]
      exact ⟨.inr (.inr (.inr rfl)),forall_mem_singleton.mpr hc⟩

end Lexer

namespace Value
open Lexer

structure IsPieces (parts : List Token) (start stop : Nat) (r : List Char) : Prop where
  adjoin : Adjoin start parts stop
  part : ∀ t ∈ parts, isRangePart t = true
  text : parts.flatMap (fun t => t.text.toList) = r

lemma isRangePart_of_lexeme {lexeme : Lexeme} (h : IsRangeLexeme lexeme) (span : Span) :
    isRangePart ⟨lexeme.kind,ofList lexeme.text,span⟩ := by
  have ht : (ofList lexeme.text).toList.all isRangeChar := by
    rw [toList_ofList]
    exact all_eq_true.mpr h.text
  refine (and_eq_true _ _).mpr ⟨?_,ht⟩
  rcases h.kind with hk | hk | hk | hk <;> rw [hk] <;> rfl

variable {s : List Char} {c : Char}

lemma exists_pieces (h : RangeAhead s) (offset : Nat) :
    ∃ ps stop, scanFrom offset s = ps ++ scanFrom stop (s.dropWhile isRangeChar) ∧
      IsPieces ps offset stop (s.takeWhile isRangeChar) := by
  induction s using Lexer.next_induction generalizing offset with
  | nil => exact ⟨[],offset,rfl,.nil,forall_mem_nil _,rfl⟩
  | step s hne ih =>
    obtain ⟨c,s,rfl⟩ := exists_cons_of_ne_nil hne
    cases hc : isRangeChar c with
    | false =>
      have hng : ¬isRangeChar c := by rw [hc]; exact false_ne_true
      rw [dropWhile_cons_of_neg hng,takeWhile_cons_of_neg hng]
      exact ⟨[],offset,rfl,.nil,forall_mem_nil _,rfl⟩
    | true =>
      have hl := isRangeLexeme_next h hc
      have ha := next_append (c :: s)
      have hd : (c :: s).dropWhile isRangeChar = (Lexer.next (c :: s)).rest.dropWhile isRangeChar :=
        (congrArg (List.dropWhile isRangeChar) ha).symm.trans (dropWhile_append_of_pos hl.text)
      have ht : (c :: s).takeWhile isRangeChar =
          (Lexer.next (c :: s)).text ++ (Lexer.next (c :: s)).rest.takeWhile isRangeChar :=
        (congrArg (List.takeWhile isRangeChar) ha).symm.trans (takeWhile_append_of_pos hl.text)
      obtain ⟨ps,stop,hs,hp⟩ := ih (h.behind ha hl.text) _
      rw [scanFrom_eq_cons offset hne,hs,hd,ht]
      refine ⟨_ :: ps,stop,rfl,.cons rfl hp.adjoin,forall_mem_cons.mpr ⟨isRangePart_of_lexeme hl _,hp.part⟩,?_⟩
      rw [flatMap_cons,hp.text,Scanner.token,toList_ofList]

variable {r : List Char}

lemma rangeParts_append {parts others : List Token} {start stop : Nat}
    (h : IsPieces parts start stop r) (ho : others.head?.all (fun t => !isRangePart t)) :
    rangeParts start (parts ++ others) = parts := by
  obtain ⟨ha,hp,-⟩ := h
  induction ha with
  | nil =>
    cases others with
    | nil => rfl
    | cons t others =>
      have ht : isRangePart t = false := (Bool.not_eq_true' _).mp ho
      rw [nil_append,rangeParts,ht,Bool.and_false]; rfl
  | cons hs _ ih =>
    obtain ⟨ht,hp⟩ := forall_mem_cons.mp hp
    rw [cons_append,rangeParts,ht,decide_eq_true hs,ih hp]; rfl

/-- The text of a range behind its first letter: up to six hexadecimal digits, the last of them
wildcards, or two runs of such digits with a hyphen between them. -/
inductive IsRange : List Char → Prop
  | wildcards {digits : List Char} {n : Nat} (hdigits : ∀ c ∈ digits, isHexDigit c = true)
      (hpos : 0 < digits.length + n) (hle : digits.length + n ≤ 6) :
      IsRange ('+' :: (digits ++ List.replicate n '?'))
  | interval {first last : List Char} (hfirst : ∀ c ∈ first, isHexDigit c = true)
      (hlast : ∀ c ∈ last, isHexDigit c = true) (hfirstLength : 0 < first.length ∧ first.length ≤ 6)
      (hlastLength : 0 < last.length ∧ last.length ≤ 6) : IsRange ('+' :: (first ++ '-' :: last))

lemma bne_of_isHexDigit {d : Char} (hc : isHexDigit c) (hd : isHexDigit d = false) : (c != d) := by
  rw [bne_iff_ne]
  rintro rfl
  rw [hc] at hd; cases hd

lemma isRangeText_of_isRange (h : IsRange r) : isRangeText r := by
  cases h with
  | @wildcards ds n hd hp hle =>
    have hq : ∀ c ∈ ds, (c != '?') := fun c hc => bne_of_isHexDigit (hd c hc) rfl
    have hh : ∀ c ∈ ds ++ List.replicate n '?', (c != '-') := by
      intro c hc
      rcases mem_append.mp hc with hc | hc
      · exact bne_of_isHexDigit (hd c hc) rfl
      · rw [eq_of_mem_replicate hc]; rfl
    have hw : (List.replicate n '?').dropWhile (· != '?') = List.replicate n '?' := by
      rw [dropWhile_replicate]; rfl
    have hn : (List.replicate n '?').takeWhile (· != '?') = [] := by
      rw [takeWhile_replicate]; rfl
    rw [isRangeText,takeWhile_eq_self_iff.mpr hh,dropWhile_eq_nil_iff.mpr hh,
      takeWhile_append_of_pos hq,dropWhile_append_of_pos hq,hw,hn,append_nil,all_eq_true.mpr hd,
      length_append,length_replicate,decide_eq_true hp,decide_eq_true hle,all_replicate]
    cases n <;> rfl
  | @interval first last hf hls hfr hl =>
    have hq : ∀ c ∈ first, (c != '?') := fun c hc => bne_of_isHexDigit (hf c hc) rfl
    have hh : ∀ c ∈ first, (c != '-') := fun c hc => bne_of_isHexDigit (hf c hc) rfl
    rw [isRangeText,takeWhile_append_of_pos hh,dropWhile_append_of_pos hh,
      takeWhile_cons_of_neg (by decide),dropWhile_cons_of_neg (by decide),append_nil,
      takeWhile_eq_self_iff.mpr hq,dropWhile_eq_nil_iff.mpr hq,
      all_eq_true.mpr hf,decide_eq_true hfr.1,decide_eq_true hfr.2]
    dsimp only
    rw [all_eq_true.mpr hls,decide_eq_true hl.1,decide_eq_true hl.2]; rfl

lemma isRangeChar_of_isRange (h : IsRange r) : ∀ c ∈ r, isRangeChar c := by
  have hh {ds : List Char} (hd : ∀ c ∈ ds, isHexDigit c) : ∀ c ∈ ds, isRangeChar c := by
    intro c hc
    rw [isRangeChar,hd c hc]; rfl
  cases h with
  | wildcards hd _ _ =>
    refine forall_mem_cons.mpr ⟨rfl,forall_mem_append.mpr ⟨hh hd,?_⟩⟩
    intro c hc
    rw [eq_of_mem_replicate hc]; rfl
  | interval hf hl _ _ =>
    refine forall_mem_cons.mpr ⟨rfl,forall_mem_append.mpr ⟨hh hf,?_⟩⟩
    exact forall_mem_cons.mpr ⟨rfl,hh hl⟩

inductive Follows (dashed : Bool) : List Char → Prop
  | nothing : Follows dashed []
  | value {separator : Char} {rest : List Char} {file : SourceFile} {value : Value}
      (hseparator : separator = ',' ∨ isSpace separator = true)
      (hread : parse file dashed (scanRules (ofList rest)) = .ok value) :
      Follows dashed (separator :: rest)

lemma next_separator (hc : c = ',' ∨ isSpace c) (s : List Char) :
    (Lexer.next (c :: s)).kind = .comma ∧ (Lexer.next (c :: s)).rest = s ∨
      (Lexer.next (c :: s)).kind = .whitespace ∧ (Lexer.next (c :: s)).rest = s.dropWhile isSpace := by
  rcases hc with rfl | hc
  · exact .inl ⟨rfl,rfl⟩
  · rw [Lexer.next,if_pos hc]
    exact .inr ⟨rfl,rfl⟩

lemma rulesFrom_cons (h : (Lexer.next (c :: s)).kind ≠ .comment) (offset : Nat) :
    ∃ t stop, t.kind = (Lexer.next (c :: s)).kind ∧
      rulesFrom offset (c :: s) = t :: rulesFrom stop (Lexer.next (c :: s)).rest := by
  rw [rulesFrom,scanFrom]
  exact ⟨_,_,rfl,filter_cons_of_pos (bne_iff_ne.mpr h)⟩

variable {dashed : Bool}

lemma isOk_parseFrom_next (h : (Lexer.next (c :: s)).kind = .comma ∨ (Lexer.next (c :: s)).kind = .whitespace)
    (file file' : SourceFile) (xs xs' : List Component) (stop stop' offset offset' : Nat) :
    (parseFrom file dashed 0 [] xs stop (rulesFrom offset (c :: s))).isOk =
      (parseFrom file' dashed 0 [] xs' stop' (rulesFrom offset' (Lexer.next (c :: s)).rest)).isOk := by
  have hc : (Lexer.next (c :: s)).kind ≠ .comment := by rcases h with h | h <;> rw [h] <;> decide
  obtain ⟨t,behind,hk,ht⟩ := rulesFrom_cons hc offset
  rw [← hk] at h
  have hl : t.kind.isLeaf ∧ t.kind.isBarred = false ∧ t.kind ≠ .ident := by
    rcases h with h | h <;> rw [h] <;> decide
  have hr : leafRange? t (rulesFrom behind (Lexer.next (c :: s)).rest) = none := if_neg hl.2.2
  rw [ht,parseFrom_leaf hl.1 hl.2.1,hr]
  exact isOk_parseFrom_rulesFrom file' file xs' _ stop' _ offset' _ _

lemma isOk_parseFrom_separator (hc : c = ',' ∨ isSpace c) (s : List Char)
    (file file' : SourceFile) (items items' : List Component) (stop stop' offset offset' : Nat) :
    (parseFrom file dashed 0 [] items stop (rulesFrom offset (c :: s))).isOk =
      (parseFrom file' dashed 0 [] items' stop' (rulesFrom offset' s)).isOk := by
  rcases next_separator hc s with ⟨hk,hr⟩ | ⟨hk,hr⟩
  · rw [isOk_parseFrom_next (.inl hk) file file' items items' stop stop' offset offset',hr]
  · rw [isOk_parseFrom_next (.inr hk) file file' items items' stop stop' offset offset',hr]
    -- White space at the start of what follows belongs to the same token.
    cases s with
    | nil => rfl
    | cons d s =>
      by_cases hd : isSpace d
      · have hn : Lexer.next (d :: s) = ⟨.whitespace,d :: s.takeWhile isSpace,s.dropWhile isSpace⟩ := by
          rw [Lexer.next,if_pos hd]
        rw [dropWhile_cons_of_pos hd,
          isOk_parseFrom_next (.inr (by rw [hn])) file' file' items' items' stop' stop' offset' offset',
          hn]
      · rw [dropWhile_cons_of_neg hd]

namespace Follows
variable {tail : List Char}

lemma rangeAhead_append (h : Follows dashed tail) (hr : ∀ c ∈ r, isRangeChar c) :
    RangeAhead (r ++ tail) ∧ (r ++ tail).takeWhile isRangeChar = r ∧ (r ++ tail).dropWhile isRangeChar = tail := by
  rw [RangeAhead,takeWhile_append_of_pos hr,dropWhile_append_of_pos hr]
  cases h with
  | nothing => exact ⟨rfl,append_nil r,rfl⟩
  | @value separator rest _ _ hs _ =>
    have hb : isBreak separator := by
      rw [isBreak,or_eq_true,beq_iff_eq]
      exact hs
    have hn : ¬isRangeChar separator := by
      rw [(isRangeChar_of_isBreak hb).1]
      exact false_ne_true
    rw [takeWhile_cons_of_neg hn,dropWhile_cons_of_neg hn]
    exact ⟨hb,append_nil r,rfl⟩

lemma head?_rulesFrom (h : Follows dashed tail) (offset : Nat) :
    (rulesFrom offset tail).head?.all (fun t => !isRangePart t) := by
  cases h with
  | nothing =>
    rw [rulesFrom,scanFrom]; rfl
  | @value separator rest _ _ hs _ =>
    have hk : (Lexer.next (separator :: rest)).kind = .comma ∨ (Lexer.next (separator :: rest)).kind = .whitespace :=
      (next_separator hs rest).imp And.left And.left
    have hc : (Lexer.next (separator :: rest)).kind ≠ .comment := by
      rcases hk with h | h <;> rw [h] <;> decide
    obtain ⟨t,stop,ht,htk⟩ := rulesFrom_cons hc offset
    have hp : isRangePart t = false := by
      rw [isRangePart,ht]
      rcases hk with h | h <;> rw [h] <;> rfl
    rw [htk]
    exact (not_eq_true' _).mpr hp

lemma isOk_parseFrom (h : Follows dashed tail) (file : SourceFile) (items : List Component) (stop offset : Nat) :
    (parseFrom file dashed 0 [] items stop (rulesFrom offset tail)).isOk := by
  cases h with
  | nothing =>
    rw [rulesFrom,scanFrom]; rfl
  | @value separator rest file' value hs hr =>
    have hrl : rulesFrom 0 rest = scanRules (ofList rest) := by
      rw [scanRules,scan,toList_ofList]; rfl
    rw [isOk_parseFrom_separator hs rest file file' items [] stop 0 offset 0,hrl]
    exact congrArg Except.isOk hr

end Follows

lemma next_letter (hc : c = 'u' ∨ c = 'U') (s : List Char) : Lexer.next (c :: '+' :: s) = ⟨.ident,[c],'+' :: s⟩ := by
  rcases hc with rfl | rfl
  · exact next_identifier (s := "u") (by decide) (by decide) rfl
  · exact next_identifier (s := "U") (by decide) (by decide) rfl

lemma scanRules_range (hc : c = 'u' ∨ c = 'U') (hr : IsRange r) {tail : List Char} (htl : Follows dashed tail) :
    ∃ u parts stop, scanRules (ofList (c :: r ++ tail)) = u :: (parts ++ rulesFrom stop tail) ∧
      u.kind = .ident ∧ u.text = ofList [c] ∧ IsPieces parts u.span.stop stop r := by
  have hn : Lexer.next (c :: (r ++ tail)) = ⟨.ident,[c],r ++ tail⟩ := by
    cases hr <;> exact next_letter hc _
  obtain ⟨ha,htk,hd⟩ := htl.rangeAhead_append (isRangeChar_of_isRange hr)
  obtain ⟨parts,stop,hs,hp⟩ := exists_pieces ha (0 + utf8Length [c])
  have hrl : parts.filter (fun t => t.kind != .comment) = parts := by
    refine filter_eq_self.mpr fun t ht => ?_
    rcases kind_of_isRangePart (hp.part t ht) with h | h | h | h <;> rw [h] <;> rfl
  rw [hd] at hs
  rw [htk] at hp
  refine ⟨⟨.ident,ofList [c],⟨0,0 + utf8Length [c]⟩⟩,parts,stop,?_,rfl,rfl,hp⟩
  rw [scanRules,scan,toList_ofList,cons_append,scanFrom,hn]
  dsimp only
  rw [hs,filter_cons_of_pos rfl,filter_append,hrl]; rfl

lemma parse_range (file : SourceFile) (hc : c = 'u' ∨ c = 'U') (hr : IsRange r) {tail : List Char}
    (ht : Follows dashed tail) :
    ∃ stop offset, parse file dashed (scanRules (ofList (c :: r ++ tail))) =
      parseFrom file dashed 0 [] [.unicodeRange (ofList (c :: r))] stop (rulesFrom offset tail) := by
  obtain ⟨u,parts,stop,htk,hk,htx,hp⟩ := scanRules_range hc hr ht
  have hlt : (lower u.text == "u") := by
    rw [htx]
    rcases hc with rfl | rfl <;> decide
  have hrn : leafRange? u (parts ++ rulesFrom stop tail) = some parts := by
    rw [leafRange?,if_pos hk,range?,if_pos hlt,rangeParts_append hp (ht.head?_rulesFrom stop)]
    dsimp only
    rw [hp.text,if_pos (isRangeText_of_isRange hr)]
  have hw : String.join (u.text :: parts.map Token.text) = ofList (c :: r) := by
    rw [← String.toList_inj,String.toList_join,flatMap_cons,flatMap_map,hp.text,
      htx,toList_ofList,toList_ofList,singleton_append]
  have ha : addLeaf file 0 u (some parts) [] = [.unicodeRange (ofList (c :: r))] := by
    rw [addLeaf,leaf?.eq_def,hk,← hw,separate_nil]; rfl
  have hl : u.kind.isLeaf ∧ u.kind.isBarred = false := by
    rw [hk]; decide
  refine ⟨endOfTokens u parts,stop,?_⟩
  rw [htk,parse,parseFrom_leaf hl.1 hl.2,hrn,ha,Option.getD_some,parseFrom_skip,drop_left]

def isRangeOf (text : String) : Component → Bool
  | .unicodeRange s => s == text
  | _ => false

lemma exists_cons_of_isRangeOf {text : String} {value : Value}
    (h : value.head?.any (isRangeOf text)) : ∃ rest, value = .unicodeRange text :: rest := by
  cases value with
  | nil => cases h
  | cons c rest =>
    cases c with
    | unicodeRange s =>
      have hs : s = text := eq_of_beq h
      exact ⟨rest,by rw [hs]⟩
    | _ => cases h

/-- A range of code points, alone or before a comma or white space and a text that is read as a value, is
read as one component, and its text is kept. -/
theorem parse_unicodeRange (file : SourceFile) (dashed : Bool) {c : Char} (hc : c = 'u' ∨ c = 'U')
    {r : List Char} (hr : IsRange r) {tail : List Char} (htail : Follows dashed tail) :
    ∃ value, parse file dashed (scanRules (String.ofList (c :: r ++ tail))) =
        .ok (.unicodeRange (String.ofList (c :: r)) :: value) ∧
      (tail = [] → value = []) ∧
      ∀ minify, Value.render minify (.unicodeRange (String.ofList (c :: r)) :: value) =
        String.ofList (c :: r) ++ Component.render.renderList minify
          (some (.unicodeRange (String.ofList (c :: r)))) value := by
  obtain ⟨stop, offset, hparse⟩ := parse_range file hc hr htail
  have hok := htail.isOk_parseFrom file [.unicodeRange (String.ofList (c :: r))] stop offset
  rw [hparse]
  cases hvalue : parseFrom file dashed 0 [] [.unicodeRange (String.ofList (c :: r))] stop
      (rulesFrom offset tail) with
  | error fault =>
    rw [hvalue] at hok
    cases hok
  | ok value =>
    have hself : (bottom [] [.unicodeRange (String.ofList (c :: r))]).getLast?.any
        (isRangeOf (String.ofList (c :: r))) = true := beq_self_eq_true (String.ofList (c :: r))
    obtain ⟨rest, rfl⟩ := exists_cons_of_isRangeOf (first_parseFrom rfl hself hvalue)
    refine ⟨rest, rfl, ?_, fun minify => rfl⟩
    rintro rfl
    rw [rulesFrom, scanFrom] at hvalue
    cases hvalue
    rfl

/-- The digits of a range may look like a number with an exponent. -/
theorem parse_unicodeRange_exponent :
    IsRange "+12E3-45".toList ∧ Follows true " u+1e-5, var(--a from global)".toList ∧
      ∃ value, parse (.ofText "" "") true
          (scanRules "U+12E3-45 u+1e-5, var(--a from global)") = .ok (.unicodeRange "U+12E3-45" :: value) := by
  have hr : IsRange "+12E3-45".toList := by
    have hhex : (∀ c ∈ "12E3".toList, isHexDigit c = true) ∧ ∀ c ∈ "45".toList, isHexDigit c = true :=
      ⟨all_eq_true.mp rfl, all_eq_true.mp rfl⟩
    exact .interval hhex.1 hhex.2 (by decide) (by decide)
  have hread : (parse (.ofText "" "") true (scanRules "u+1e-5, var(--a from global)")).isOk = true := by
    decide +kernel
  have htail : Follows true " u+1e-5, var(--a from global)".toList := by
    cases hvalue : parse (.ofText "" "") true (scanRules "u+1e-5, var(--a from global)") with
    | error fault =>
      rw [hvalue] at hread
      cases hread
    | ok value => exact .value (Or.inr rfl) hvalue
  refine ⟨hr, htail, ?_⟩
  obtain ⟨value, hvalue, -⟩ := parse_unicodeRange (.ofText "" "") true (Or.inr rfl) hr htail
  exact ⟨value, hvalue⟩

end Value
end Css
