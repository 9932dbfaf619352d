import Css.Proofs.Token.Reading
import Css.Proofs.Token.Tiles

/-!
# Names that can be written

An escape never denotes the null character. So if a source has none, no name and no string of its tokens
has one, and what its tokens denote can be written again.
-/
namespace Css
open List Text Lexer Escape
open Written (HasNoNull)
namespace Escape

lemma toNat_charOfCode_ne_zero (n : Nat) : (charOfCode n).toNat ≠ 0 := by
  unfold charOfCode
  split
  · rename_i h
    rw [Bool.and_eq_true,decide_eq_true_eq,decide_eq_true_eq] at h
    have hn : (Char.ofNat n).toNat = n := by
      rw [Char.ofNat,dif_pos h.2]
      exact UInt32.toNat_ofNatLT
    rw [hn]
    exact h.1
  · decide

lemma mem_dropSpace {s : List Char} {c : Char} (h : c ∈ dropSpace s) : c ∈ s := by
  cases s with
  | nil => exact h
  | cons d s =>
    rw [dropSpace] at h
    split at h
    · exact mem_cons_of_mem d h
    · exact h

lemma hasNoNull_decode {s : List Char} (h : HasNoNull s) : HasNoNull (decode s) := by
  fun_induction decode s with
  | case1 => exact h
  | case2 =>
    intro c hc
    rw [mem_singleton.mp hc]; decide
  | case3 rest ih => exact ih fun c hc => h c (by simp [hc])
  | case4 c rest _ _ ih => exact ih fun d hd => h d (by simp [hd])
  | case5 c rest _ _ _ ih =>
    have hr : HasNoNull (dropSpace (spanUpTo isHexDigit 6 (c :: rest)).2) := by
      intro d hd
      have hm : d ∈ c :: rest := by
        rw [← spanUpTo_append isHexDigit 6 (c :: rest)]
        exact mem_append_right _ (mem_dropSpace hd)
      exact h d (mem_cons_of_mem _ hm)
    intro d hd
    rcases mem_cons.mp hd with rfl | hd
    · exact toNat_charOfCode_ne_zero _
    · exact ih hr d hd
  | case6 c rest _ _ _ ih =>
    intro d hd
    rcases mem_cons.mp hd with rfl | hd
    · exact h d (by simp)
    · exact ih (fun e he => h e (by simp [he])) d hd
  | case7 c rest _ _ _ ih =>
    intro d hd
    rcases mem_cons.mp hd with rfl | hd
    · exact h d (by simp)
    · exact ih (fun e he => h e (by simp [he])) d hd

lemma decode_escape_ne_nil {c : Char} (h : isNewline c = false) (rest : List Char) : decode ('\\' :: c :: rest) ≠ [] := by
  have hr : ∀ rest', c = '\r' → rest = '\n' :: rest' → False := by
    rintro rest' rfl
    cases h
  rw [decode.eq_4 c rest hr,h]
  split
  · rename_i hf
    cases hf
  · split <;> exact cons_ne_nil _ _

end Escape

namespace Lexer

lemma head?_spanUpTo {p : Char → Bool} {c : Char} (h : p c) (n : Nat)
    (s : List Char) : (spanUpTo p (n + 1) (c :: s)).1.head? = some c := by
  rw [spanUpTo,if_pos h]; rfl

lemma head?_spanEscape (c : Char) (s : List Char) : (spanEscape (c :: s)).1.head? = some c := by
  rw [spanEscape]
  split
  · rename_i hh
    rw [head?_append,head?_spanUpTo hh]; rfl
  · rfl

lemma decode_spanName_ne_nil {s : List Char} (h : startsIdent s) : decode (spanName s).1 ≠ [] := by
  cases s with
  | nil => cases h
  | cons c s =>
    by_cases hn : isNameChar c
    · have hs : c ≠ '\\' := by
        rintro rfl
        cases hn
      rw [spanName,if_pos hn,decode_cons hs]
      exact cons_ne_nil _ _
    · obtain rfl | rfl | hc := head_of_startsIdent h
      · exact absurd rfl hn
      · have he : startsEscape ('\\' :: s) := h
        rw [spanName,if_neg hn,if_pos he]
        cases s with
        | nil => simp [spanEscape,spanName,decode]
        | cons d s =>
          have hnw : isNewline d = false := (Bool.not_eq_true' _).mp he
          obtain ⟨more,hm⟩ := head?_eq_some_iff.mp (head?_spanEscape d s)
          dsimp only
          rw [hm]
          exact decode_escape_ne_nil hnw _
      · exact absurd (by simp [isNameChar,hc]) hn

def isNamed : Token.Kind → Bool
  | .ident | .idHash => true
  | _ => false

/-- An identifier or an id is a name that the lexer takes where an identifier starts. -/
lemma exists_startsIdent_of_isNamed {s : List Char} (h : isNamed (next s).kind) :
    ∃ r, startsIdent r ∧ ((next s).kind = .ident ∧ (next s).text = (spanName r).1 ∨
        (next s).kind = .idHash ∧ (next s).text = '#' :: (spanName r).1) := by
  have hs : s ≠ [] := by
    rintro rfl
    cases h
  have hnm : hasName (next s).kind := by
    cases hk : (next s).kind <;> first | rfl | (rw [hk] at h; cases h)
  obtain ⟨r,hn⟩ := (known_next hs).named hnm
  generalize next s = lexeme at h hn
  cases hn with
  | ident hr => exact ⟨_,hr,.inl ⟨rfl,rfl⟩⟩
  | idHash hr => exact ⟨_,hr,.inr ⟨rfl,rfl⟩⟩
  | _ => cases h

end Lexer

namespace Token

structure Legible (t : Token) : Prop where
  name : HasNoNull t.name.toList
  value : HasNoNull t.stringValue.toList
  nonempty : Lexer.isNamed t.kind = true → t.name ≠ ""

variable {s : List Char}

lemma mem_of_mem_untilQuote {quote c : Char} (h : c ∈ untilQuote quote s) : c ∈ s := by
  fun_induction untilQuote quote s with
  | case1 => exact h
  | case2 d s ih =>
    rcases mem_cons.mp h with rfl | h
    · exact mem_cons_self
    · rcases mem_cons.mp h with rfl | h
      · simp
      · simp [ih h]
  | case3 d s _ hd => cases h
  | case4 d s _ hd ih =>
    rcases mem_cons.mp h with rfl | h
    · exact mem_cons_self
    · exact mem_cons_of_mem _ (ih h)

variable {t : Token}

lemma mem_of_mem_rawName {c : Char} (h : c ∈ t.rawName) : c ∈ t.text.toList := by
  unfold rawName at h
  split at h
  · split at h
    · rename_i name hn
      rw [← mem_reverse,hn]
      exact mem_cons_of_mem _ (mem_reverse.mp h)
    · exact h
  · exact mem_of_mem_drop h
  · exact mem_of_mem_drop h
  · exact mem_of_mem_drop h
  · exact h

lemma hasNoNull_name (h : HasNoNull t.text.toList) : HasNoNull t.name.toList := by
  rw [Token.name,String.toList_ofList]
  exact hasNoNull_decode fun c hc => h c (mem_of_mem_rawName hc)

lemma hasNoNull_stringValue (h : HasNoNull t.text.toList) : HasNoNull t.stringValue.toList := by
  unfold stringValue
  split
  · intro c hc
    cases hc
  · rename_i quote body ht
    rw [ht] at h
    rw [String.toList_ofList]
    refine hasNoNull_decode fun c hc => h c ?_
    exact mem_cons_of_mem _ (mem_of_mem_untilQuote hc)

lemma name_ne_empty (hkn : t.kind = (Lexer.next s).kind)
    (htx : t.text = String.ofList (Lexer.next s).text) (h : Lexer.isNamed t.kind) :
    t.name ≠ "" := by
  rw [hkn] at h
  obtain ⟨r,hr,hl⟩ := Lexer.exists_startsIdent_of_isNamed h
  have hrw : t.rawName = (Lexer.spanName r).1 := by
    rcases hl with ⟨hk,ht⟩ | ⟨hk,ht⟩
    · rw [rawName,hkn,hk,htx,ht,String.toList_ofList]
    · rw [rawName,hkn,hk,htx,ht,String.toList_ofList]; rfl
  rw [Token.name,hrw,ne_eq,String.ofList_eq_empty_iff]
  exact Lexer.decode_spanName_ne_nil hr

lemma exists_rest_of_mem_scanFrom {n offset : Nat} (hn : s.length ≤ n) (ht : t ∈ scanFrom offset s) :
    ∃ pre r, pre ++ r = s ∧ r ≠ [] ∧ t.span.start = offset + utf8Length pre ∧
      t.kind = (Lexer.next r).kind ∧ t.text = String.ofList (Lexer.next r).text := by
  induction n generalizing offset s with
  | zero =>
    rw [length_eq_zero_iff.mp (Nat.le_zero.mp hn),scanFrom] at ht; cases ht
  | succ n ih =>
    cases s with
    | nil =>
      rw [scanFrom] at ht; cases ht
    | cons c s =>
      rw [scanFrom] at ht
      rcases mem_cons.mp ht with rfl | ht
      · exact ⟨[],c :: s,rfl,cons_ne_nil c s,rfl,rfl,rfl⟩
      · have hsh := Lexer.length_next_rest_lt (cons_ne_nil c s)
        obtain ⟨pre,r,hr,hne,hs,hl⟩ := ih (by omega) ht
        refine ⟨(Lexer.next (c :: s)).text ++ pre,r,?_,hne,?_,hl⟩
        · rw [append_assoc,hr,Lexer.next_append]
        · rw [hs,utf8Length_append,Nat.add_assoc]

lemma exists_next_of_mem_scanFrom {n offset : Nat} (hn : s.length ≤ n) (ht : t ∈ scanFrom offset s) :
    ∃ r, r ≠ [] ∧ (∀ c ∈ r, c ∈ s) ∧ t.kind = (Lexer.next r).kind ∧ t.text = String.ofList (Lexer.next r).text := by
  obtain ⟨pre,r,rfl,hne,-,hl⟩ := exists_rest_of_mem_scanFrom hn ht
  exact ⟨r,hne,fun _ hc => mem_append_right pre hc,hl⟩

variable {source : String}

/-- Every token of a source without a null character is the first one of such a text. -/
lemma exists_next_of_mem_scan (h : HasNoNull source.toList) (ht : t ∈ scan source) :
    ∃ r, HasNoNull t.text.toList ∧ t.kind = (Lexer.next r).kind ∧ t.text = String.ofList (Lexer.next r).text := by
  obtain ⟨r,-,hr,hk,htx⟩ := exists_next_of_mem_scanFrom (Nat.le_refl _) ht
  refine ⟨r,fun c hc => h c (hr c ?_),hk,htx⟩
  rw [htx,String.toList_ofList] at hc
  rw [← Lexer.next_append r]
  exact mem_append_left _ hc

lemma text_ne_empty_of_mem_scan (ht : t ∈ scan source) : t.text ≠ "" := by
  obtain ⟨r,hne,-,-,htx⟩ := exists_next_of_mem_scanFrom (Nat.le_refl _) ht
  have hs := length_next_rest_lt hne
  have ha := congrArg List.length (next_append r)
  rw [htx,ne_eq,String.ofList_eq_empty_iff]
  intro hn
  rw [hn,nil_append] at ha; omega

lemma legible_of_mem_scan (h : HasNoNull source.toList) (ht : t ∈ scan source) : t.Legible := by
  obtain ⟨r,hn,hk,htx⟩ := exists_next_of_mem_scan h ht
  exact ⟨hasNoNull_name hn,hasNoNull_stringValue hn,name_ne_empty hk htx⟩

end Token
end Css
