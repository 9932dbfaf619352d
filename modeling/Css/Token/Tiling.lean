import Css.Token.Lexer

/-!
# Tokens tile their source

What a step of the lexer takes and what it leaves make up its input, and it takes at least one character
of a nonempty input.
-/
namespace Css.Lexer

open Text Token

theorem spanName_append (s : List Char) : (spanName s).1 ++ (spanName s).2 = s := by
  fun_induction spanName s with
  | case1 => rfl
  | case2 c rest _ name ih => simpa using ih
  | case3 c rest _ _ escape name ih =>
    have h := spanEscape_append rest
    simp only [name,List.append_assoc,List.cons_append,ih]
    simp only [escape,h]
  | case4 => rfl

theorem spanSign_append (s : List Char) : (spanSign s).1 ++ (spanSign s).2 = s := by
  unfold spanSign
  split <;> rfl

theorem spanDigits_append (s : List Char) : (spanDigits s).1 ++ (spanDigits s).2 = s :=
  List.takeWhile_append_dropWhile

theorem spanFraction_append (s : List Char) : (spanFraction s).1 ++ (spanFraction s).2 = s := by
  unfold spanFraction
  split
  · split
    · simp [spanDigits_append]
    · rfl
  · rfl

theorem spanExponent_append (s : List Char) : (spanExponent s).1 ++ (spanExponent s).2 = s := by
  unfold spanExponent
  split
  · rfl
  · dsimp only
    split
    · simp [spanDigits_append,spanSign_append]
    · rfl

theorem spanNumber_append (s : List Char) : (spanNumber s).1 ++ (spanNumber s).2 = s := by
  simp [spanNumber,spanExponent_append,spanFraction_append,spanDigits_append,spanSign_append]

theorem numeric_append (s : List Char) : (numeric s).text ++ (numeric s).rest = s := by
  have h := spanNumber_append s
  unfold numeric
  dsimp only
  split
  · simp [spanName_append,h]
  · split
    · rename_i rest hr
      simpa [hr] using h
    · exact h

theorem quoted_append (quote : Char) (s : List Char) :
    (quoted quote s).text ++ (quoted quote s).rest = s := by
  fun_induction quoted quote s with
  | case1 => rfl
  | case2 s tail ih => simpa [tail] using ih
  | case3 c s _ tail ih => simpa [tail] using ih
  | case4 c s _ _ h => simp
  | case5 c s _ _ h h' => simp
  | case6 c s _ _ h h' tail ih => simpa [tail] using ih

theorem spanComment_append (s : List Char) : (spanComment s).1 ++ (spanComment s).2 = s := by
  fun_induction spanComment s with
  | case1 => rfl
  | case2 s => rfl
  | case3 c s _ tail ih => simpa [tail] using ih

theorem spanBadUrl_append (s : List Char) : (spanBadUrl s).1 ++ (spanBadUrl s).2 = s := by
  fun_induction spanBadUrl s with
  | case1 => rfl
  | case2 rest => rfl
  | case3 c rest _ _ escape tail ih =>
    have h := spanEscape_append rest
    simp only [tail,List.append_assoc,List.cons_append,ih]
    simp only [escape,h]
  | case4 c rest _ _ tail ih => simpa [tail] using ih

theorem unquoted_append (s : List Char) : (unquoted s).text ++ (unquoted s).rest = s := by
  fun_induction unquoted s with
  | case1 => rfl
  | case2 rest => rfl
  | case3 c rest _ _ blank h =>
    have hb : rest.takeWhile isSpace ++ rest.dropWhile isSpace = rest :=
      List.takeWhile_append_dropWhile
    rw [h] at hb
    simpa [blank] using hb
  | case4 c rest _ _ blank after h =>
    have hb : rest.takeWhile isSpace ++ rest.dropWhile isSpace = rest :=
      List.takeWhile_append_dropWhile
    rw [h] at hb
    simpa [blank] using hb
  | case5 c rest _ _ blank _ _ bad =>
    have hb : rest.takeWhile isSpace ++ rest.dropWhile isSpace = rest :=
      List.takeWhile_append_dropWhile
    simp [blank,bad,spanBadUrl_append,hb]
  | case6 c rest _ _ _ bad => exact spanBadUrl_append (c :: rest)
  | case7 c rest _ _ _ _ _ escape tail ih =>
    have h := spanEscape_append rest
    simp only [tail,List.append_assoc,List.cons_append,ih]
    simp only [escape,h]
  | case8 c rest _ _ _ _ _ bad => exact spanBadUrl_append (c :: rest)
  | case9 c rest _ _ _ _ tail ih => simpa [tail] using ih

theorem identLike_append (s : List Char) : (identLike s).text ++ (identLike s).rest = s := by
  have h := spanName_append s
  unfold identLike
  dsimp only
  split
  · rename_i rest hr
    rw [hr] at h
    split
    · have hb : rest.takeWhile isSpace ++ rest.dropWhile isSpace = rest :=
        List.takeWhile_append_dropWhile
      simp [unquoted_append,hb,h]
    · simpa using h
  · exact h

theorem hashLexeme_append (s : List Char) :
    (hashLexeme s).text ++ (hashLexeme s).rest = '#' :: s := by
  unfold hashLexeme
  split <;> simp [spanName_append]

theorem atLexeme_append (s : List Char) : (atLexeme s).text ++ (atLexeme s).rest = '@' :: s := by
  unfold atLexeme
  split <;> simp [spanName_append]

variable {s : List Char}

theorem append_drop_of_isPrefixOf {start : List Char} (h : start.isPrefixOf s = true) :
    start ++ s.drop start.length = s := by
  obtain ⟨t,rfl⟩ := List.isPrefixOf_iff_prefix.mp h
  simp

theorem next_append (s : List Char) : (next s).text ++ (next s).rest = s := by
  unfold next
  split
  · rfl
  · rename_i c s
    split
    · simp
    · split
      · simp [quoted_append]
      · split
        · rename_i h
          rw [hashLexeme_append,eq_of_beq h]
        · split
          · rename_i h
            rw [atLexeme_append,eq_of_beq h]
          · split
            · rfl
            · split
              · exact numeric_append _
              · split
                · rename_i h
                  exact append_drop_of_isPrefixOf h
                · split
                  · rename_i h
                    exact append_drop_of_isPrefixOf h
                  · split
                    · exact identLike_append _
                    · split
                      · rename_i h
                        have h' := append_drop_of_isPrefixOf h
                        simpa [spanComment_append] using h'
                      · rfl

theorem spanName_ne_nil (h : startsIdent s = true) : (spanName s).1 ≠ [] := by
  cases s with
  | nil => simp [startsIdent,startsName] at h
  | cons c s =>
    rw [spanName]
    split
    · simp
    · rename_i hc
      split
      · simp
      · rename_i he
        unfold startsIdent at h
        split at h
        · rename_i heq
          simp only [List.cons.injEq] at heq
          simp [heq.1,isNameChar] at hc
        · rename_i heq
          rw [heq] at he
          exact absurd h he
        · simp only [startsName] at h
          simp [isNameChar,h] at hc

theorem spanNumber_ne_nil (h : startsNumber s = true) : (spanNumber s).1 ≠ [] := by
  intro hnil
  simp only [spanNumber,List.append_eq_nil_iff] at hnil
  obtain ⟨⟨⟨hsign,hwhole⟩,hfraction⟩,_⟩ := hnil
  have hs : (spanSign s).2 = s := by simpa [hsign] using spanSign_append s
  rw [hs] at hwhole hfraction
  have hnosign : startsUnsigned s = true := by
    unfold startsNumber at h
    split at h
    · simp [spanSign] at hsign
    · simp [spanSign] at hsign
    · exact h
  have hdigits : (spanDigits s).2 = s := by simpa [hwhole] using spanDigits_append s
  rw [hdigits] at hfraction
  unfold startsUnsigned at hnosign
  split at hnosign
  · simp [spanFraction,hnosign] at hfraction
  · cases s with
    | nil => simp [startsDigit] at hnosign
    | cons c s =>
      simp only [startsDigit] at hnosign
      simp [spanDigits,List.takeWhile,hnosign] at hwhole

theorem numeric_ne_nil (h : startsNumber s = true) : (numeric s).text ≠ [] := by
  have hn := spanNumber_ne_nil h
  unfold numeric
  dsimp only
  split
  · simp [hn]
  · split
    · simp
    · exact hn

theorem identLike_ne_nil (h : startsIdent s = true) : (identLike s).text ≠ [] := by
  have hn := spanName_ne_nil h
  unfold identLike
  dsimp only
  split
  · split <;> simp
  · exact hn

theorem hashLexeme_ne_nil (s : List Char) : (hashLexeme s).text ≠ [] := by
  unfold hashLexeme
  split <;> simp

theorem atLexeme_ne_nil (s : List Char) : (atLexeme s).text ≠ [] := by
  unfold atLexeme
  split <;> simp

theorem next_ne_nil (hs : s ≠ []) : (next s).text ≠ [] := by
  unfold next
  split
  · exact absurd rfl hs
  · rename_i c s
    split
    · simp
    · split
      · simp
      · split
        · exact hashLexeme_ne_nil s
        · split
          · exact atLexeme_ne_nil s
          · split
            · simp
            · split
              · rename_i h
                exact numeric_ne_nil h
              · split
                · simp
                · split
                  · simp
                  · split
                    · rename_i h
                      exact identLike_ne_nil h
                    · split <;> simp

theorem length_next_rest_lt (hs : s ≠ []) : (next s).rest.length < s.length := by
  have h := congrArg List.length (next_append s)
  have hpos := List.length_pos_iff.mpr (next_ne_nil hs)
  rw [List.length_append] at h
  omega

/-- Induction over the tokens of a text, the last ones first. -/
theorem next_induction {motive : List Char → Prop} (nil : motive [])
    (step : ∀ s, s ≠ [] → motive (next s).rest → motive s) (s : List Char) : motive s :=
  if hs : s = [] then hs ▸ nil else step s hs (next_induction nil step (next s).rest)
termination_by s.length
decreasing_by exact length_next_rest_lt hs

end Css.Lexer
