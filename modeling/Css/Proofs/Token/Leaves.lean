import Css.Proofs.Token.Numeric

/-!
# Leaves are read back as single tokens

The text that is written for an identifier, a hash, a string or a dimension is one token, and this token
denotes what was written.
-/
namespace Css
open List Text Number Lexer Written String
namespace Lexer

lemma startsName_of_spanName {s : List Char} (h : (spanName s).1 ≠ []) : (s.head?.any isNameChar || startsEscape s) := by
  cases s with
  | nil =>
    rw [spanName] at h
    exact absurd rfl h
  | cons c s =>
    rw [Bool.or_eq_true,head?_cons,Option.any_some]
    by_cases hn : isNameChar c
    · exact .inl hn
    · by_cases he : startsEscape (c :: s)
      · exact .inr he
      · rw [spanName,if_neg hn,if_neg he] at h
        exact absurd rfl h

lemma next_hash_of_spanName {text rest : List Char} (hne : text ≠ []) (hs : spanName (text ++ rest) = (text,rest)) :
    ∃ kind, (kind = .hash ∨ kind = .idHash) ∧
      next ('#' :: (text ++ rest)) = ⟨kind,'#' :: text,rest⟩ := by
  have hn : ((text ++ rest).head?.any isNameChar || startsEscape (text ++ rest)) := by
    apply startsName_of_spanName
    rw [hs]
    exact hne
  have hh : next ('#' :: (text ++ rest)) = hashLexeme (text ++ rest) := rfl
  rw [hh,hashLexeme,if_pos hn,hs]
  cases startsIdent (text ++ rest) with
  | true => exact ⟨.idHash,.inr rfl,rfl⟩
  | false => exact ⟨.hash,.inl rfl,rfl⟩

end Lexer

namespace Token

section
variable {s : String} (h : Written.HasNoNull s.toList)

include h in
lemma name_of_nameChars {t : Token} (hk : t.kind = .hash ∨ t.kind = .idHash)
    (ht : t.text.toList = '#' :: nameChars s.toList) : t.name = s := by
  have hr : t.rawName = nameChars s.toList := by
    rcases hk with hk | hk <;> rw [rawName,hk,ht] <;> rfl
  have hd := (isName_nameChars h).decode []
  rw [append_nil] at hd
  rw [name,hr,hd,Escape.decode,append_nil,ofList_toList]

include h in
lemma nameChars_ne_nil (hs : s ≠ "") : nameChars s.toList ≠ [] := by
  intro hn
  have hd := (isName_nameChars h).decode []
  rw [hn,append_nil,Escape.decode,append_nil] at hd
  exact hs (toList_eq_nil_iff.mp hd.symm)

lemma exists_scan_eq {text : String} {kind : Kind} (hk : kind ≠ .eof)
    (hn : Lexer.next text.toList = ⟨kind,text.toList,[]⟩) :
    ∃ t, scan text = [t] ∧ t.kind = kind ∧ t.text = text := by
  rw [scan]
  cases ht : text.toList with
  | nil =>
    rw [ht] at hn
    exact absurd (congrArg Lexer.Lexeme.kind hn).symm hk
  | cons c s =>
    rw [ht] at hn
    rw [scanFrom,hn,scanFrom,← ht,ofList_toList]
    exact ⟨_,rfl,rfl,rfl⟩

include h

lemma scan_identifier (hs : s ≠ "") : ∃ t, scan (Written.identifier s) = [t] ∧ t.kind = .ident ∧ t.name = s := by
  have hn : Lexer.next ((Written.identifier s).toList ++ []) = _ := Lexer.next_identifier h hs rfl
  rw [append_nil] at hn
  obtain ⟨t,ht,hk,htx⟩ := exists_scan_eq Kind.noConfusion hn
  exact ⟨t,ht,hk,name_of_identifier h hk htx⟩

lemma scan_hash_name (hs : s ≠ "") :
    ∃ t, scan ("#" ++ Written.name s) = [t] ∧ (t.kind = .hash ∨ t.kind = .idHash) ∧ t.name = s := by
  have hl : ("#" ++ Written.name s).toList = '#' :: Written.nameChars s.toList := by
    rw [toList_append]
    exact congrArg ('#' :: ·) toList_ofList
  have hsp : spanName (Written.nameChars s.toList ++ []) = (Written.nameChars s.toList,[]) := by
    rw [(Written.isName_nameChars h).span,spanName,append_nil]
  obtain ⟨kind,hk,hn⟩ := next_hash_of_spanName (nameChars_ne_nil h hs) hsp
  rw [append_nil,← hl] at hn
  have hkn : kind ≠ .eof := by rcases hk with rfl | rfl <;> exact Kind.noConfusion
  obtain ⟨t,ht,rfl,htx⟩ := exists_scan_eq hkn hn
  exact ⟨t,ht,hk,name_of_nameChars h hk (by rw [htx,hl])⟩

lemma scan_string : ∃ t, scan (Written.string s) = [t] ∧ t.kind = .string ∧ t.stringValue = s := by
  have hn := Lexer.next_string h []
  rw [append_nil] at hn
  obtain ⟨t,ht,hk,htx⟩ := exists_scan_eq Kind.noConfusion hn
  exact ⟨t,ht,hk,stringValue_of_string h htx⟩

lemma scan_dimension (hs : s ≠ "") {n : Numeral} (hn : n.IsPlain) :
    ∃ t, scan (String.ofList n.text ++ Written.unit s) = [t] ∧ t.kind = .dimension ∧ t.unit = s ∧ t.numeral = n.text := by
  have hl : (String.ofList n.text ++ Written.unit s).toList = n.text ++ (Written.unit s).toList := by
    rw [String.toList_append,String.toList_ofList]
  have hnx : Lexer.next (n.text ++ ((Written.unit s).toList ++ [])) = _ := Lexer.next_dimension hn h hs rfl
  rw [append_nil,← hl] at hnx
  obtain ⟨t,ht,hk,htx⟩ := exists_scan_eq Kind.noConfusion hnx
  exact ⟨t,ht,hk,dimension_of_text hn h hs hk (by rw [htx,hl])⟩

end

/-- A name that is not empty is read back from an identifier, from a hash and from the unit of a number;
any text is read back from a string. Each of them is one token. -/
theorem scan_written {s : String} (h : Written.HasNoNull s.toList) : (s ≠ "" →
      (∃ t, scan (Written.identifier s) = [t] ∧ t.kind = .ident ∧ t.name = s) ∧
        ∃ t, scan ("#" ++ Written.name s) = [t] ∧ (t.kind = .hash ∨ t.kind = .idHash) ∧ t.name = s) ∧
      (∃ t, scan (Written.string s) = [t] ∧ t.kind = .string ∧ t.stringValue = s) ∧
      (s ≠ "" → ∀ n : Numeral, n.IsPlain →
        ∃ t, scan (String.ofList n.text ++ Written.unit s) = [t] ∧ t.kind = .dimension ∧ t.unit = s ∧
          t.numeral = n.text) :=
  ⟨fun hs => ⟨scan_identifier h hs, scan_hash_name h hs⟩, scan_string h,
    fun hs _ hn => scan_dimension h hs hn⟩

/-- A unit that would go on with its number, with characters that need an escape of each kind. -/
theorem scan_written_exponent :
    Written.HasNoNull "e-1\n \x22\\".toList ∧ Numeral.IsPlain ⟨true, [], ['5'], 0⟩ ∧
      (∃ t, scan (Written.identifier "e-1\n \x22\\") = [t] ∧ t.kind = .ident ∧
        t.name = "e-1\n \x22\\") ∧
      ∃ t, scan (String.ofList ['-', '.', '5'] ++ Written.unit "e-1\n \x22\\") = [t] ∧
        t.kind = .dimension ∧ t.unit = "e-1\n \x22\\" ∧ t.numeral = ['-', '.', '5'] := by
  have hnull : Written.HasNoNull "e-1\n \x22\\".toList := by decide
  have hn : Numeral.IsPlain ⟨true, [], ['5'], 0⟩ :=
    ⟨forall_mem_nil _, forall_mem_singleton.mpr rfl, .inr (cons_ne_nil _ _), rfl⟩
  have htext : Numeral.text ⟨true, [], ['5'], 0⟩ = ['-', '.', '5'] := rfl
  obtain ⟨hname, -, hunit⟩ := scan_written hnull
  have hdimension := hunit (by decide) _ hn
  rw [htext] at hdimension
  exact ⟨hnull, hn, (hname (by decide)).1, hdimension⟩

end Token
end Css
