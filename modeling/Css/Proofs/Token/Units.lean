import Css.Proofs.Token.Legible
import Css.Proofs.Token.Numeric

/-!
# Units that can be written

What is cut off as a number is cut off as this number again if the text after it ends sooner. So the bytes
of a token alone, without what follows in the source, give the number that the token starts with.
-/
namespace Css
open List Text
namespace Lexer

def IsStable (span : List Char → List Char × List Char) : Prop :=
  ∀ s rest tail, (span s).2 = rest ++ tail → span ((span s).1 ++ rest) = ((span s).1,rest)

variable {c : Char} {s : List Char}

lemma stable_nil {span : List Char → List Char × List Char} {rest tail : List Char}
    (hn : span [] = ([],[])) (h : c :: s = rest ++ tail)
    (hc : ∀ more, s = more ++ tail → span (c :: more) = ([],c :: more)) :
    span ([] ++ rest) = ([],rest) := by
  cases rest with
  | nil => exact hn
  | cons d more =>
    obtain ⟨rfl,hm⟩ := List.cons.inj h
    exact hc more hm

lemma spanFraction_of_ne (hp : c ≠ '.') (s : List Char) : spanFraction (c :: s) = ([],c :: s) := by
  unfold spanFraction
  split
  · rename_i heq
    exact absurd (List.cons.inj heq).1 hp
  · rfl

lemma isStable_spanSign : IsStable spanSign := by
  intro s rest tail h
  cases s with
  | nil =>
    obtain ⟨rfl,-⟩ := append_eq_nil_iff.mp h.symm
    rfl
  | cons c s =>
    by_cases hp : c = '+'
    · rw [hp]; rfl
    · by_cases hm : c = '-'
      · rw [hm]; rfl
      · rw [spanSign_of_ne hp hm] at h ⊢
        exact stable_nil rfl h fun more _ => spanSign_of_ne hp hm more

lemma startsDigit_of_append {tail : List Char} (h : startsDigit (s ++ tail) = false) : startsDigit s = false := by
  cases s with
  | nil => rfl
  | cons c s => exact h

lemma isStable_spanDigits : IsStable spanDigits := by
  intro s rest tail h
  have hdg : ∀ c ∈ (spanDigits s).1, c.isDigit := all_eq_true.mp all_takeWhile
  have hd : startsDigit (spanDigits s).2 = false := by
    have hh := head?_dropWhile_not Char.isDigit s
    change startsDigit (s.dropWhile Char.isDigit) = false
    cases hs : s.dropWhile Char.isDigit with
    | nil => rfl
    | cons c more =>
      rw [hs] at hh
      simpa [startsDigit] using hh
  rw [h] at hd
  exact spanDigits_of_all hdg (startsDigit_of_append hd)

lemma startsDigit_spanDigits (h : startsDigit s) (rest : List Char) : startsDigit ((spanDigits s).1 ++ rest) := by
  cases s with
  | nil => cases h
  | cons c s =>
    have hc : c.isDigit := h
    rw [spanDigits,takeWhile_cons_of_pos hc]
    exact hc

lemma isStable_spanFraction : IsStable spanFraction := by
  intro s rest tail h
  cases s with
  | nil =>
    obtain ⟨rfl,-⟩ := append_eq_nil_iff.mp h.symm
    rfl
  | cons c s =>
    by_cases hp : c = '.'
    · subst hp
      by_cases hd : startsDigit s
      · rw [spanFraction,if_pos hd] at h ⊢
        rw [cons_append,spanFraction,if_pos (startsDigit_spanDigits hd rest),isStable_spanDigits s rest tail h]
      · rw [spanFraction,if_neg hd] at h ⊢
        refine stable_nil rfl h fun more hm => ?_
        rw [hm] at hd
        rw [spanFraction,if_neg]
        rw [Bool.not_eq_true] at hd ⊢
        exact startsDigit_of_append hd
    · rw [spanFraction_of_ne hp] at h ⊢
      exact stable_nil rfl h fun more _ => spanFraction_of_ne hp more

lemma signedDigit_append (h : startsDigit (spanSign s).2) (tail : List Char) : startsDigit (spanSign (s ++ tail)).2 := by
  have hg {more : List Char} (hmr : startsDigit more) : startsDigit (more ++ tail) := by
    cases more with
    | nil => cases hmr
    | cons c more => exact hmr
  cases s with
  | nil => cases h
  | cons c s =>
    by_cases hp : c = '+'
    · subst hp
      exact hg h
    · by_cases hm : c = '-'
      · subst hm
        exact hg h
      · rw [spanSign_of_ne hp hm] at h
        rw [cons_append,spanSign_of_ne hp hm]
        exact hg h

lemma isStable_spanExponent : IsStable spanExponent := by
  intro s rest tail h
  cases s with
  | nil =>
    obtain ⟨rfl,-⟩ := append_eq_nil_iff.mp h.symm
    rfl
  | cons c s =>
    by_cases he : ((c == 'e' || c == 'E') && startsDigit (spanSign s).2)
    · rw [spanExponent,if_pos he] at h ⊢
      rw [Bool.and_eq_true] at he
      have hd := isStable_spanDigits (spanSign s).2 rest tail h
      have hs : spanSign ((spanSign s).1 ++ ((spanDigits (spanSign s).2).1 ++ rest)) =
          ((spanSign s).1,(spanDigits (spanSign s).2).1 ++ rest) := by
        apply isStable_spanSign s _ tail
        rw [append_assoc,← h,spanDigits_append]
      have hst := startsDigit_spanDigits he.2 rest
      rw [append_assoc,cons_append,spanExponent,hs,he.1,hst,hd]; rfl
    · rw [spanExponent,if_neg he] at h ⊢
      refine stable_nil rfl h fun more hm => ?_
      rw [spanExponent,if_neg]
      intro hf
      rw [Bool.and_eq_true] at hf
      apply he
      rw [hm,hf.1,signedDigit_append hf.2 tail]; rfl

lemma IsStable.seq {f g : List Char → List Char × List Char} (hf : IsStable f) (hg : IsStable g)
    (ha : ∀ s, (g s).1 ++ (g s).2 = s) :
    IsStable fun s => ((f s).1 ++ (g (f s).2).1,(g (f s).2).2) := by
  intro s rest tail h
  dsimp only at h ⊢
  have hfr : f ((f s).1 ++ ((g (f s).2).1 ++ rest)) = ((f s).1,(g (f s).2).1 ++ rest) := by
    apply hf s _ tail
    rw [append_assoc,← h,ha]
  rw [append_assoc,hfr]
  rw [hg _ rest tail h]

lemma isStable_spanNumber : IsStable spanNumber :=
  ((isStable_spanSign.seq isStable_spanDigits spanDigits_append).seq isStable_spanFraction
    spanFraction_append).seq isStable_spanExponent spanExponent_append

lemma exists_spanNumber_of_dimension (h : (next s).kind = .dimension) : ∃ r, startsIdent (spanNumber r).2 ∧
      (next s).text = (spanNumber r).1 ++ (spanName (spanNumber r).2).1 := by
  have hs : s ≠ [] := by
    rintro rfl
    cases h
  obtain ⟨r,hn⟩ := (known_next hs).named (by rw [h]; rfl)
  generalize next s = lexeme at h hn
  cases hn with
  | dimension hr => exact ⟨_,hr,rfl⟩
  | _ => cases h

end Lexer

namespace Token
variable {t : Token}

lemma hasNoNull_unit (h : Written.HasNoNull t.text.toList) (hk : t.kind = .dimension) :
    Written.HasNoNull t.unit.toList := by
  rw [unit,hk]
  dsimp only
  rw [String.toList_ofList]
  refine Escape.hasNoNull_decode fun c hc => h c ?_
  rw [← Lexer.spanNumber_append t.text.toList]
  exact mem_append_right _ hc

lemma unit_ne_empty {s : List Char} (hk : t.kind = (Lexer.next s).kind)
    (ht : t.text = String.ofList (Lexer.next s).text) (h : t.kind = .dimension) : t.unit ≠ "" := by
  obtain ⟨r,hi,hr⟩ := Lexer.exists_spanNumber_of_dimension (hk.symm.trans h)
  have hs := Lexer.isStable_spanNumber r _ _ (Lexer.spanName_append (Lexer.spanNumber r).2).symm
  rw [unit,h,ht,String.toList_ofList,hr,hs,ne_eq,String.ofList_eq_empty_iff]
  exact Lexer.decode_spanName_ne_nil hi

lemma unit_of_mem_scan {src : String} (h : Written.HasNoNull src.toList) (ht : t ∈ scan src) (hk : t.kind = .dimension) :
    Written.HasNoNull t.unit.toList ∧ t.unit ≠ "" := by
  obtain ⟨r,hn,hnx,htx⟩ := exists_next_of_mem_scan h ht
  exact ⟨hasNoNull_unit hn hk,unit_ne_empty hnx htx hk⟩

open Lexer

def bytesOf (s : List Char) : List UInt8 := s.flatMap String.utf8EncodeChar

def byteIs (p : Char → Bool) (bytes : List UInt8) (i : Nat) : Bool := bytes[i]?.any fun b => p (Char.ofNat b.toNat)

def isSign (c : Char) : Bool := c == '+' || c == '-'

def signEnd (bytes : List UInt8) (i : Nat) : Nat :=
  if byteIs isSign bytes i then i + 1 else i

def digitsEnd (bytes : List UInt8) (i : Nat) : Nat :=
  if h : byteIs Char.isDigit bytes i then digitsEnd bytes (i + 1) else i
termination_by bytes.length - i
decreasing_by
  obtain ⟨b,hb,-⟩ := (Option.any_eq_true ..).mp h
  have hl := (List.getElem?_eq_some_iff.mp hb).1
  omega

def fractionEnd (bytes : List UInt8) (i : Nat) : Nat :=
  if byteIs (· == '.') bytes i && byteIs Char.isDigit bytes (i + 1) then digitsEnd bytes (i + 1) else i

def exponentEnd (bytes : List UInt8) (i : Nat) : Nat :=
  let first := signEnd bytes (i + 1)
  if byteIs (fun c => c == 'e' || c == 'E') bytes i && byteIs Char.isDigit bytes first then
    digitsEnd bytes first
  else i

/-- The index behind the number at the start: a sign, digits, a fraction and an exponent, each by the bytes
at its place. -/
def numeralEnd (bytes : List UInt8) : Nat := exponentEnd bytes (fractionEnd bytes (digitsEnd bytes (signEnd bytes 0)))

/-- What is left of a text from an index of its bytes on. -/
def LeftAt (text : List Char) (i : Nat) (s : List Char) : Prop := ∃ before,text = before ++ s ∧ i = utf8Length before

variable {text s : List Char} {i : Nat}

lemma length_bytesOf (s : List Char) : (bytesOf s).length = utf8Length s := by
  induction s with
  | nil => rfl
  | cons c s ih => rw [bytesOf,flatMap_cons,length_append,String.length_utf8EncodeChar,← bytesOf,ih]; rfl

/-- A byte of a class of ASCII characters is such a character of the text. -/
lemma byteIs_eq {p : Char → Bool} (hp : ∀ c,p c → c.toNat < 128) (h : LeftAt text i s) :
    byteIs p (bytesOf text) i = s.head?.any p := by
  obtain ⟨before,rfl,rfl⟩ := h
  have ha : bytesOf (before ++ s) = bytesOf before ++ bytesOf s := flatMap_append
  rw [byteIs,ha,← length_bytesOf,getElem?_append_right (Nat.le_refl _),Nat.sub_self]
  cases s with
  | nil => rfl
  | cons c s =>
    have hf {n : Nat} (hn : 128 ≤ n) (hl : n < 256) : p (Char.ofNat (UInt8.ofNat n).toNat) = false := by
      have he : (Char.ofNat n).toNat = n := by rw [Char.ofNat,dif_pos (.inl (by omega))]; rfl
      rw [UInt8.toNat_ofNat',Nat.mod_eq_of_lt hl,Bool.eq_false_iff]
      intro ht
      exact absurd (hp _ ht) (by omega)
    rw [bytesOf,flatMap_cons,head?_cons,Option.any_some,String.utf8EncodeChar]
    change Option.any _ ((if c.toNat ≤ 127 then _ else _ : List UInt8) ++ _)[0]? = _
    by_cases hc : c.toNat ≤ 127
    · rw [if_pos hc]
      change p (Char.ofNat (UInt8.ofNat c.toNat).toNat) = p c
      rw [UInt8.toNat_ofNat',Nat.mod_eq_of_lt (by omega),Char.ofNat_toNat]
    · have hpc : p c = false := Bool.eq_false_iff.mpr fun ht => hc (Nat.le_of_lt_succ (hp c ht))
      rw [if_neg hc,hpc]
      split
      · exact hf (by omega) (by omega)
      · split <;> exact hf (by omega) (by omega)

lemma LeftAt.next {c : Char} (h : LeftAt text i (c :: s)) (hc : c.toNat < 128) : LeftAt text (i + 1) s := by
  obtain ⟨before,rfl,rfl⟩ := h
  refine ⟨before ++ [c],by simp,?_⟩
  rw [utf8Length_append,utf8Length,utf8Length,Char.utf8Size_eq_one_iff.mpr (Nat.le_of_lt_succ hc)]

lemma lt_of_isDigit (c : Char) (h : c.isDigit) : c.toNat < 128 := by
  rw [Char.isDigit,Bool.and_eq_true,decide_eq_true_eq,decide_eq_true_eq] at h
  exact Nat.lt_of_le_of_lt h.2 (by decide)

lemma byteIs_isDigit (h : LeftAt text i s) : byteIs Char.isDigit (bytesOf text) i = startsDigit s := by
  rw [byteIs_eq lt_of_isDigit h]
  cases s <;> rfl

lemma LeftAt.digits (h : LeftAt text i s) : LeftAt text (digitsEnd (bytesOf text) i) (spanDigits s).2 := by
  induction s generalizing i with
  | nil =>
    rw [digitsEnd,dif_neg (by rw [byteIs_isDigit h]; decide)]
    exact h
  | cons c s ih =>
    have hd : byteIs Char.isDigit (bytesOf text) i = c.isDigit := byteIs_isDigit h
    rw [digitsEnd,spanDigits]
    by_cases hc : c.isDigit
    · rw [dif_pos (hd.trans hc),dropWhile_cons_of_pos hc]
      exact ih (h.next (lt_of_isDigit c hc))
    · rw [dif_neg (hd ▸ hc),dropWhile_cons_of_neg hc]
      exact h

lemma LeftAt.sign (h : LeftAt text i s) : LeftAt text (signEnd (bytesOf text) i) (spanSign s).2 := by
  have hp (c : Char) (hc : isSign c) : c.toNat < 128 := by
    simp only [isSign,Bool.or_eq_true,beq_iff_eq] at hc
    rcases hc with rfl | rfl <;> decide
  rw [signEnd,byteIs_eq hp h]
  cases s with
  | nil => exact h
  | cons c s =>
    by_cases hc : c = '+'
    · subst hc
      exact h.next (by decide)
    · by_cases hm : c = '-'
      · subst hm
        exact h.next (by decide)
      · rw [spanSign_of_ne hc hm,if_neg (by simp [isSign,hc,hm])]
        exact h

lemma LeftAt.fraction (h : LeftAt text i s) : LeftAt text (fractionEnd (bytesOf text) i) (spanFraction s).2 := by
  rw [fractionEnd,byteIs_eq (by simp) h]
  cases s with
  | nil => exact h
  | cons c s =>
    by_cases hc : c = '.'
    · subst hc
      have hn := h.next (by decide)
      rw [byteIs_isDigit hn,spanFraction]
      change LeftAt text (if startsDigit s = true then _ else _) _
      split
      · exact hn.digits
      · exact h
    · rw [spanFraction_of_ne hc,if_neg (by simp [hc])]
      exact h

lemma LeftAt.exponent (h : LeftAt text i s) : LeftAt text (exponentEnd (bytesOf text) i) (spanExponent s).2 := by
  have hp (c : Char) (hc : (c == 'e' || c == 'E')) : c.toNat < 128 := by
    simp only [Bool.or_eq_true,beq_iff_eq] at hc
    rcases hc with rfl | rfl <;> decide
  rw [exponentEnd,byteIs_eq hp h]
  cases s with
  | nil => exact h
  | cons c s =>
    rw [head?_cons,Option.any_some,spanExponent]
    by_cases hc : (c == 'e' || c == 'E') = true
    · have hn := (h.next (hp c hc)).sign
      rw [hc,byteIs_isDigit hn]
      split
      · exact hn.digits
      · exact h
    · rw [Bool.not_eq_true] at hc
      rw [hc]
      exact h

lemma numeralEnd_eq (text : List Char) : numeralEnd (bytesOf text) = utf8Length (spanNumber text).1 := by
  have h : LeftAt text 0 text := ⟨[],rfl,rfl⟩
  obtain ⟨before,ht,hn⟩ := h.sign.digits.fraction.exponent
  have ha := spanNumber_append text
  rw [numeralEnd,hn,append_cancel_right (ht.symm.trans ha.symm)]

/-- What follows the number of a token, by the kind of the token. -/
lemma numeric_cases (s : List Char) : ∃ tail,(numeric s).text = (spanNumber s).1 ++ tail ∧
    ((numeric s).kind = .number ∧ tail = [] ∨ (numeric s).kind = .percentage ∧ tail = ['%'] ∨
      (numeric s).kind = .dimension ∧ tail = (spanName (spanNumber s).2).1) := by
  rw [numeric]
  dsimp only
  split
  · exact ⟨_,rfl,.inr (.inr ⟨rfl,rfl⟩)⟩
  · split
    · exact ⟨_,rfl,.inr (.inl ⟨rfl,rfl⟩)⟩
    · exact ⟨[],(append_nil _).symm,.inl ⟨rfl,rfl⟩⟩

/-- The bytes of a numeric token start with the number that the lexer cut off, and with no more. The rest of
them is nothing, a percent sign or the name of the unit. -/
theorem numeralEnd_of_mem_scan {source : String} {t : Token} (ht : t ∈ scan source)
    (hk : t.kind.isNumeric = true) : ∃ before after,source.toList = before ++ (t.text.toList ++ after) ∧
      t.span.start = utf8Length before ∧
      numeric (t.text.toList ++ after) = ⟨t.kind,t.text.toList,after⟩ ∧
      let number := spanNumber (t.text.toList ++ after)
      numeralEnd (bytesOf t.text.toList) = utf8Length number.1 ∧ t.numeral = number.1 ∧
      (t.kind = .number → t.text.toList = number.1) ∧
      (t.kind = .percentage → t.text.toList = number.1 ++ ['%']) ∧
      (t.kind = .dimension → t.text.toList = number.1 ++ (spanName number.2).1 ∧
        t.unit = String.ofList (Escape.decode (spanName number.2).1)) := by
  obtain ⟨before,s,hs,hne,hst,hkn,htx⟩ := exists_rest_of_mem_scanFrom (Nat.le_refl _) ht
  have he := (known_next hne).numeric (hkn ▸ hk)
  rw [he] at hkn htx
  have hl : t.text.toList = (numeric s).text := by rw [htx,String.toList_ofList]
  have ha := numeric_append s
  obtain ⟨tail,hn,hc⟩ := numeric_cases s
  have hsp : spanNumber ((spanNumber s).1 ++ tail) = ((spanNumber s).1,tail) := by
    refine isStable_spanNumber s tail (numeric s).rest ((append_right_inj (spanNumber s).1).mp ?_)
    rw [spanNumber_append,← append_assoc,← hn,ha]
  refine ⟨before,(numeric s).rest,?_,?_,?_,?_⟩
  · rw [hl,ha,hs]
  · rw [hst,Nat.zero_add]
  · rw [hl,ha,hkn]
  · rw [numeralEnd_eq,numeral,unit,hl,ha,hn,hsp,hkn]
    rcases hc with ⟨hc,rfl⟩ | ⟨hc,rfl⟩ | ⟨hc,rfl⟩ <;> simp [hc]

theorem numeralEnd_of_mem_scan_escape : ∃ t ∈ scan "a -1.5e\\35 é;",t.kind = .dimension ∧ t.unit = "e5é" ∧
    ∃ after,numeralEnd (bytesOf t.text.toList) = utf8Length (spanNumber (t.text.toList ++ after)).1 := by
  have ht : ⟨.dimension,"-1.5e\\35 é",⟨2,13⟩⟩ ∈ scan "a -1.5e\\35 é;" := by decide +kernel
  obtain ⟨before,after,-,-,-,hn,-⟩ := numeralEnd_of_mem_scan ht rfl
  exact ⟨_,ht,rfl,by decide +kernel,after,hn⟩

end Token
end Css
