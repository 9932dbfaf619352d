import Css.Proofs.Source.Lines
import Css.Token.Stream

/-!
# Tokens one after the other

A scanner takes one token at a time. At the end of its text it stays where it is. A token with a name
is a name of the lexer with a fixed text around it.
-/
namespace Css.Lexer
open Text Token

def hasName : Kind → Bool
  | .ident | .function | .atKeyword | .hash | .idHash | .dimension => true
  | _ => false

inductive Named : List Char → Lexeme → List Char → Prop
  | ident {s : List Char} (hs : startsIdent s = true) :
      Named s ⟨.ident,(spanName s).1,(spanName s).2⟩ s
  | function {s rest : List Char} (hs : startsIdent s = true) (hrest : (spanName s).2 = '(' :: rest) :
      Named s ⟨.function,(spanName s).1 ++ ['('],rest⟩ s
  | atKeyword {s : List Char} (hs : startsIdent s = true) :
      Named ('@' :: s) ⟨.atKeyword,'@' :: (spanName s).1,(spanName s).2⟩ s
  | hash {s : List Char} (hs : (s.head?.any isNameChar || startsEscape s) = true)
      (hident : startsIdent s = false) :
      Named ('#' :: s) ⟨.hash,'#' :: (spanName s).1,(spanName s).2⟩ s
  | idHash {s : List Char} (hs : startsIdent s = true) :
      Named ('#' :: s) ⟨.idHash,'#' :: (spanName s).1,(spanName s).2⟩ s
  | dimension {s : List Char} (hs : startsIdent (spanNumber s).2 = true) :
      Named s ⟨.dimension,(spanNumber s).1 ++ (spanName (spanNumber s).2).1,
        (spanName (spanNumber s).2).2⟩ (spanNumber s).2

structure Unquoted (s : List Char) (lexeme : Lexeme) (rest : List Char) : Prop where
  name : sameLetters (String.ofList (spanName s).1) "url" = true
  opens : (spanName s).2 = '(' :: rest
  eq : lexeme = { unquoted (rest.dropWhile isSpace) with
    text := (spanName s).1 ++ '(' :: rest.takeWhile isSpace ++ (unquoted (rest.dropWhile isSpace)).text }

structure Known (s : List Char) (lexeme : Lexeme) : Prop where
  ne_eof : lexeme.kind ≠ .eof
  named : hasName lexeme.kind = true → ∃ r, Named s lexeme r
  url : lexeme.kind = .url → ∃ rest, Unquoted s lexeme rest
  numeric : lexeme.kind.isNumeric = true → lexeme = Lexer.numeric s

def isPlain (kind : Kind) : Bool := !hasName kind && kind != .eof && kind != .url && !kind.isNumeric

variable {s : List Char}

variable {lexeme : Lexeme}

lemma Known.of_isPlain (h : isPlain lexeme.kind) : Known s lexeme := by
  simp only [isPlain,Bool.and_eq_true,Bool.not_eq_true',bne_iff_ne] at h
  obtain ⟨⟨⟨hn,he⟩,hu⟩,hk⟩ := h
  exact ⟨he,fun h => absurd h (by simp [hn]),fun h => absurd h hu,fun h => absurd h (by simp [hk])⟩

lemma Known.of_named {r : List Char} (h : Named s lexeme r) : Known s lexeme :=
  ⟨by cases h <;> exact Kind.noConfusion,fun _ => ⟨r,h⟩,by cases h <;> exact Kind.noConfusion,fun hk => by
    cases h with
    | dimension hs => rw [Lexer.numeric,if_pos hs]
    | _ => cases hk⟩

lemma known_numeric (s : List Char) : Known s (numeric s) := by
  by_cases hi : startsIdent (spanNumber s).2
  · rw [numeric,if_pos hi]
    exact .of_named (.dimension hi)
  · refine ⟨?_,?_,?_,fun _ => rfl⟩ <;>
    · rw [numeric,if_neg hi]
      split <;> (intro h; cases h)

lemma kind_quoted (quote : Char) (s : List Char) :
    (quoted quote s).kind = .string ∨ (quoted quote s).kind = .badString := by
  fun_induction quoted quote s with
  | case1 | case4 => exact .inl rfl
  | case2 _ _ ih | case3 _ _ _ _ ih | case6 _ _ _ _ _ _ _ ih => exact ih
  | case5 => exact .inr rfl

lemma kind_unquoted (s : List Char) : (unquoted s).kind = .url ∨ (unquoted s).kind = .badUrl := by
  fun_induction unquoted s with
  | case1 | case2 | case3 | case4 => exact .inl rfl
  | case7 _ _ _ _ _ _ _ _ _ ih | case9 _ _ _ _ _ _ _ ih => exact ih
  | _ => exact .inr rfl

lemma known_quoted (quote : Char) (r text : List Char) : Known s { quoted quote r with text := text } := by
  rcases kind_quoted quote r with h | h
  · exact .of_isPlain (by rw [h]; rfl)
  · exact .of_isPlain (by rw [h]; rfl)

lemma Known.of_unquoted {rest : List Char} (h : Unquoted s lexeme rest) : Known s lexeme := by
  rcases kind_unquoted (rest.dropWhile isSpace) with hk | hk
  · have hl : lexeme.kind = .url := h.eq ▸ hk
    exact ⟨hl ▸ Kind.noConfusion,fun hn => by simp [hl,hasName] at hn,fun _ => ⟨rest,h⟩,fun hn => by
      simp [hl,Kind.isNumeric] at hn⟩
  · have hl : lexeme.kind = .badUrl := h.eq ▸ hk
    exact .of_isPlain (by rw [hl]; rfl)

lemma known_identLike (hs : startsIdent s) : Known s (identLike s) := by
  unfold identLike
  dsimp only
  split
  · rename_i rest hr
    split
    · rename_i hu
      exact .of_unquoted ⟨(Bool.and_eq_true_iff.mp hu).1,hr,rfl⟩
    · exact .of_named (.function hs hr)
  · exact .of_named (.ident hs)

lemma known_hashLexeme (s : List Char) : Known ('#' :: s) (hashLexeme s) := by
  unfold hashLexeme
  split
  · rename_i hn
    cases hi : startsIdent s with
    | true => exact .of_named (.idHash hi)
    | false => exact .of_named (.hash hn hi)
  · exact .of_isPlain rfl

lemma known_atLexeme (s : List Char) : Known ('@' :: s) (atLexeme s) := by
  unfold atLexeme
  split
  · rename_i hi
    exact .of_named (.atKeyword hi)
  · exact .of_isPlain rfl

lemma kind_punctuation? {c : Char} {kind : Kind} (h : punctuation? c = some kind) : isPlain kind := by
  unfold punctuation? at h
  repeat' split at h
  all_goals cases h
  all_goals rfl

lemma known_next (hs : s ≠ []) : Known s (next s) := by
  unfold next
  split
  · exact absurd rfl hs
  · rename_i c s
    split
    · exact .of_isPlain rfl
    · split
      · exact known_quoted c s _
      · split
        · rename_i h
          rw [eq_of_beq h]
          exact known_hashLexeme s
        · split
          · rename_i h
            rw [eq_of_beq h]
            exact known_atLexeme s
          · split
            · rename_i kind hk
              exact .of_isPlain (kind_punctuation? hk)
            · split
              · exact known_numeric _
              · split
                · exact .of_isPlain rfl
                · split
                  · exact .of_isPlain rfl
                  · split
                    · rename_i hi
                      exact known_identLike hi
                    · split <;> exact .of_isPlain rfl

end Css.Lexer

namespace Css
open List Text

/-- Where a scanner stands, and what it has not read yet. -/
structure Scanner where
  position : Nat
  left : List Char

namespace Scanner

def ofSource (source : String) : Scanner := ⟨0,source.toList⟩

def token (s : Scanner) : Token := let lexeme := Lexer.next s.left
  ⟨lexeme.kind,String.ofList lexeme.text,⟨s.position,s.position + utf8Length lexeme.text⟩⟩

def advance (s : Scanner) : Scanner := ⟨s.token.span.stop,(Lexer.next s.left).rest⟩

def advanceBy : Nat → Scanner → Scanner
  | 0, s => s
  | k + 1, s => advanceBy k s.advance

/-- A step leaves the end of the text where it is. -/
lemma end_advance (s : Scanner) : s.advance.position + utf8Length s.advance.left = s.position + utf8Length s.left := by
  change s.position + utf8Length (Lexer.next s.left).text + utf8Length (Lexer.next s.left).rest = _
  rw [Nat.add_assoc,← utf8Length_append,Lexer.next_append]

lemma end_advanceBy (k : Nat) (s : Scanner) :
    (s.advanceBy k).position + utf8Length (s.advanceBy k).left = s.position + utf8Length s.left := by
  induction k generalizing s with
  | zero => rfl
  | succ k ih => exact (ih s.advance).trans (end_advance s)

end Scanner

namespace Token

lemma scanFrom_nil (offset : Nat) : scanFrom offset [] = [] := by rw [scanFrom]

lemma scanFrom_eq_cons (offset : Nat) {s : List Char} (hs : s ≠ []) : scanFrom offset s = Scanner.token ⟨offset,s⟩ ::
      scanFrom (Scanner.token ⟨offset,s⟩).span.stop (Lexer.next s).rest := by
  cases s with
  | nil => exact absurd rfl hs
  | cons c s =>
    rw [scanFrom]; rfl

/-- Tokens that follow each other without a gap. -/
inductive Adjoin : Nat → List Token → Nat → Prop
  | nil {n : Nat} : Adjoin n [] n
  | cons {start stop : Nat} {t : Token} {ts : List Token} (hs : t.span.start = start)
      (h : Adjoin t.span.stop ts stop) : Adjoin start (t :: ts) stop

lemma adjoin_scanFrom (offset : Nat) (s : List Char) :
    Adjoin offset (scanFrom offset s) (offset + utf8Length s) := by
  induction s using Lexer.next_induction generalizing offset with
  | nil =>
    rw [scanFrom_nil]
    exact .nil
  | step s hs ih =>
    rw [scanFrom_eq_cons offset hs,← Scanner.end_advance ⟨offset,s⟩]
    exact .cons rfl (ih _)

lemma exists_scanner_of_mem_scanFrom {offset : Nat} {s : List Char} {t : Token} (ht : t ∈ scanFrom offset s) :
    ∃ pre r, pre ++ r = s ∧ r ≠ [] ∧ t = Scanner.token ⟨offset + utf8Length pre,r⟩ := by
  induction s using Lexer.next_induction generalizing offset with
  | nil =>
    rw [scanFrom_nil] at ht; cases ht
  | step s hs ih =>
    rw [scanFrom_eq_cons offset hs] at ht
    rcases mem_cons.mp ht with rfl | ht
    · exact ⟨[],s,rfl,hs,rfl⟩
    · obtain ⟨pre,r,hr,hne,rfl⟩ := ih ht
      refine ⟨(Lexer.next s).text ++ pre,r,?_,hne,?_⟩
      · rw [append_assoc,hr,Lexer.next_append]
      · rw [utf8Length_append,← Nat.add_assoc]; rfl

lemma le_start_of_mem_scanFrom {offset : Nat} {s : List Char} {t : Token}
    (ht : t ∈ scanFrom offset s) : offset ≤ t.span.start := by
  obtain ⟨pre,r,-,-,rfl⟩ := exists_scanner_of_mem_scanFrom ht
  exact Nat.le_add_right ..

lemma ordered_scanFrom (offset : Nat) (s : List Char) :
    (scanFrom offset s).Pairwise fun t u => t.span.start < u.span.start := by
  induction s using Lexer.next_induction generalizing offset with
  | nil =>
    rw [scanFrom_nil]
    exact .nil
  | step s hs ih =>
    rw [scanFrom_eq_cons offset hs]
    have hlt : offset < (Scanner.token ⟨offset,s⟩).span.stop :=
      Nat.lt_add_of_pos_right (utf8Length_pos (Lexer.next_ne_nil hs))
    exact .cons (fun t ht => Nat.lt_of_lt_of_le hlt (le_start_of_mem_scanFrom ht)) (ih _)

lemma getElem?_scanFrom (k : Nat) (s : Scanner) : (scanFrom s.position s.left)[k]? =
      if (s.advanceBy k).left = [] then none else some (s.advanceBy k).token := by
  induction k generalizing s with
  | zero =>
    rw [Scanner.advanceBy]
    by_cases hs : s.left = []
    · rw [hs,scanFrom_nil,if_pos rfl]; rfl
    · rw [scanFrom_eq_cons _ hs,if_neg hs]; rfl
  | succ k ih =>
    by_cases hs : s.left = []
    · obtain ⟨position,left⟩ := s
      subst hs
      have h := ih ⟨position,[]⟩
      rw [scanFrom_nil] at h ⊢
      exact h
    · rw [scanFrom_eq_cons _ hs,getElem?_cons_succ]
      exact ih s.advance

variable {source : String} {t : Token}

lemma slice?_of_mem_scan (ht : t ∈ scan source) : t.span.start < t.span.stop ∧ IsBoundary source.toList t.span.start ∧
      IsBoundary source.toList t.span.stop ∧ t.span.slice? source = some t.text := by
  obtain ⟨pre,r,hr,hne,rfl⟩ := exists_scanner_of_mem_scanFrom ht
  have hs : pre ++ ((Lexer.next r).text ++ (Lexer.next r).rest) = source.toList := by
    rw [Lexer.next_append,hr]
  rw [Nat.zero_add]
  refine ⟨Nat.lt_add_of_pos_right (utf8Length_pos (Lexer.next_ne_nil hne)),⟨pre,r,hr,rfl⟩,
    ⟨pre ++ (Lexer.next r).text,(Lexer.next r).rest,?_,utf8Length_append ..⟩,?_⟩
  · rw [append_assoc,hs]
  · rw [Span.slice?,← hs]
    exact congrArg (Option.map String.ofList) (sliceBytes?_append ..)

/-- The tokens of a source tile it: they are not empty, start and end between two characters and have
the text of their spans. A scanner takes them one by one, and then only ends of the source. -/
theorem scan_tiles (source : String) :
    Adjoin 0 (scan source) (utf8Length source.toList) ∧
      (∀ t ∈ scan source, t.span.start < t.span.stop ∧ IsBoundary source.toList t.span.start ∧
        IsBoundary source.toList t.span.stop ∧ t.span.slice? source = some t.text) ∧
      (∀ k t, (scan source)[k]? = some t →
        t.kind ≠ .eof ∧ ((Scanner.ofSource source).advanceBy k).token = t) ∧
      ∀ k, (scan source).length ≤ k →
        ((Scanner.ofSource source).advanceBy k).position = utf8Length source.toList ∧
          ((Scanner.ofSource source).advanceBy k).token = endOf source := by
  have hscan (k : Nat) := getElem?_scanFrom k (Scanner.ofSource source)
  refine ⟨?_, fun t ht => slice?_of_mem_scan ht, fun k t ht => ?_, fun k hk => ?_⟩
  · have h := adjoin_scanFrom 0 source.toList
    rwa [Nat.zero_add] at h
  · have h := (hscan k).symm.trans ht
    split at h
    · cases h
    · rename_i hleft
      cases h
      exact ⟨(Lexer.known_next hleft).ne_eof, rfl⟩
  · have h := (hscan k).symm.trans (getElem?_eq_none hk)
    have hend := Scanner.end_advanceBy k (Scanner.ofSource source)
    split at h
    · rename_i hleft
      generalize (Scanner.ofSource source).advanceBy k = s at hleft hend ⊢
      obtain ⟨position, left⟩ := s
      subst hleft
      have hposition : position = utf8Length source.toList := hend.trans (Nat.zero_add _)
      subst hposition
      exact ⟨rfl, rfl⟩
    · cases h

end Token
end Css
