import Css.Proofs.Token.Units

/-!
# Urls, step by step

The lexer takes the target of an unquoted url in steps, up to the blanks and the parenthesis that end it.
The value of the url is read off the text again, where a blank or a parenthesis at the end is dropped
even if a backslash stands before it.
-/
namespace Css
open List Text Escape
namespace Lexer

inductive NameStep where
  | plain (c : Char)
  | escaped (c : Char)
  | coded (digits blank : List Char)
  | cut

namespace NameStep

def text : NameStep → List Char
  | plain c => [c]
  | escaped c => ['\\',c]
  | coded digits blank => '\\' :: digits ++ blank
  | cut => ['\\']

def char : NameStep → Char
  | plain c => c
  | escaped c => c
  | coded digits _ => charOfCode (hexNumber digits)
  | cut => '�'

def endsLine : NameStep → Bool
  | coded _ blank => blank == ['\r','\n']
  | _ => false

def chars (step : NameStep) : List Char := step.char :: if step.endsLine then ['\n'] else []

end NameStep

def escapeStep : List Char → NameStep
  | [] => .cut
  | c :: s =>
    if isHexDigit c then
      .coded (spanUpTo isHexDigit 6 (c :: s)).1 (spanEscapeEnd (spanUpTo isHexDigit 6 (c :: s)).2).1
    else .escaped c

def nameSteps (s : List Char) : List NameStep := match s with
  | [] => []
  | c :: rest =>
    if isNameChar c then .plain c :: nameSteps rest
    else if startsEscape (c :: rest) then escapeStep rest :: nameSteps (spanEscape rest).2
    else []
termination_by s.length
decreasing_by
  · simp
  · exact Nat.lt_succ_of_le (length_spanEscape_le rest)

lemma text_escapeStep (s : List Char) : (escapeStep s).text = '\\' :: (spanEscape s).1 := by
  cases s with
  | nil => rfl
  | cons c s =>
    rw [escapeStep,spanEscape]
    split
    · rfl
    · rfl

lemma head_of_startsEscape {c : Char} {s : List Char} (h : startsEscape (c :: s)) :
    c = '\\' ∧ s.head?.any isNewline = false := by
  unfold startsEscape at h
  split at h
  · rename_i heq
    obtain ⟨rfl,rfl⟩ := List.cons.inj heq
    exact ⟨rfl,(Bool.not_eq_true' _).mp h⟩
  · rename_i heq
    obtain ⟨rfl,rfl⟩ := List.cons.inj heq
    exact ⟨rfl,rfl⟩
  · cases h

lemma text_nameSteps (s : List Char) : (nameSteps s).flatMap NameStep.text = (spanName s).1 := by
  fun_induction nameSteps s with
  | case1 => rw [spanName]; rfl
  | case2 c rest hn ih =>
    rw [spanName,if_pos hn,flatMap_cons,ih]; rfl
  | case3 c rest hn he ih =>
    rw [spanName,if_neg hn,if_pos he,flatMap_cons,ih,text_escapeStep,(head_of_startsEscape he).1]
  | case4 c rest hn he =>
    rw [spanName,if_neg hn,if_neg he]; rfl

lemma isStable_spanUpTo (p : Char → Bool) (n : Nat) : IsStable (spanUpTo p n) := by
  intro s rest tail h
  induction n generalizing s with
  | zero => rfl
  | succ n ih =>
    cases s with
    | nil =>
      obtain ⟨rfl,-⟩ := append_eq_nil_iff.mp h.symm
      rfl
    | cons c s =>
      by_cases hc : p c
      · rw [spanUpTo,if_pos hc] at h ⊢
        rw [cons_append,spanUpTo,if_pos hc,ih s h]
      · rw [spanUpTo,if_neg hc] at h ⊢
        cases rest with
        | nil => rfl
        | cons d rest =>
          obtain ⟨rfl,-⟩ := List.cons.inj h
          rw [nil_append,spanUpTo,if_neg hc]

/-- A blank behind digits is left out of a name, and so is the carriage return of a line end. -/
lemma dropSpace_spanEscapeEnd {s more tail : List Char} (h : (spanEscapeEnd s).2 = more ++ tail) :
    dropSpace ((spanEscapeEnd s).1 ++ more) =
      (if (spanEscapeEnd s).1 == ['\r','\n'] then ['\n'] else []) ++ more := by
  unfold spanEscapeEnd at h ⊢
  split at h
  · rfl
  · obtain ⟨rfl,-⟩ := append_eq_nil_iff.mp h.symm
    rfl
  · rename_i c s _
    by_cases hs : isSpace c
    · have hsn : ([c] == ['\r','\n']) = false := by
        rw [beq_eq_false_iff_ne]
        exact fun heq => cons_ne_nil _ _ (List.cons.inj heq).2.symm
      rw [if_pos hs,hsn,singleton_append,dropSpace,if_pos hs]; rfl
    · rw [if_neg hs] at h ⊢
      cases more with
      | nil => rfl
      | cons d more =>
        obtain ⟨rfl,-⟩ := List.cons.inj h
        rw [nil_append,dropSpace,if_neg hs]; rfl

lemma decode_escapeStep {s more tail : List Char} (hn : s.head?.any isNewline = false)
    (hm : (spanEscape s).2 = more ++ tail) :
    decode ((escapeStep s).text ++ more) = (escapeStep s).chars ++ decode more := by
  cases s with
  | nil =>
    obtain ⟨rfl,-⟩ := append_eq_nil_iff.mp hm.symm
    simp [escapeStep,NameStep.text,NameStep.chars,NameStep.char,NameStep.endsLine,decode]
  | cons c s =>
    by_cases hh : isHexDigit c
    · have hf : ∃ more, (spanUpTo isHexDigit 6 (c :: s)).1 = c :: more := by
        rw [spanUpTo,if_pos hh]
        exact ⟨_,rfl⟩
      have hs := isStable_spanUpTo isHexDigit 6 (c :: s)
      rw [spanEscape,if_pos hh] at hm
      rw [escapeStep,if_pos hh]
      generalize spanUpTo isHexDigit 6 (c :: s) = cut at hf hs hm ⊢
      obtain ⟨ds,rest⟩ := cut
      obtain ⟨ds,rfl⟩ := hf
      have hsp : spanUpTo isHexDigit 6 (c :: (ds ++ ((spanEscapeEnd rest).1 ++ more))) =
          (c :: ds,(spanEscapeEnd rest).1 ++ more) := by
        apply hs _ tail
        rw [append_assoc,← hm,spanEscapeEnd_append]
      have hb := dropSpace_spanEscapeEnd hm
      have ht : NameStep.text (.coded (c :: ds) (spanEscapeEnd rest).1) ++ more =
          '\\' :: c :: (ds ++ ((spanEscapeEnd rest).1 ++ more)) := by
        simp [NameStep.text]
      rw [ht,decode_digits hh hsp,hb,NameStep.chars,NameStep.endsLine]
      cases (spanEscapeEnd rest).1 == ['\r','\n'] with
      | true => exact congrArg _ (decode_cons (by decide) more)
      | false => rfl
    · rw [escapeStep,if_neg hh]
      exact decode_escape hn (Bool.eq_false_iff.mpr hh) more

lemma decode_spanName (s : List Char) : decode (spanName s).1 = (nameSteps s).flatMap NameStep.chars := by
  fun_induction nameSteps s with
  | case1 =>
    rw [spanName,decode]; rfl
  | case2 c rest hn ih =>
    have hs : c ≠ '\\' := by
      rintro rfl
      cases hn
    rw [spanName,if_pos hn,decode_cons hs,ih,flatMap_cons]; rfl
  | case3 c rest hn he ih =>
    obtain ⟨rfl,hnw⟩ := head_of_startsEscape he
    rw [spanName,if_neg hn,if_pos he]
    dsimp only
    rw [← text_escapeStep,decode_escapeStep hnw (spanName_append _).symm,ih,flatMap_cons]
  | case4 c rest hn he =>
    rw [spanName,if_neg hn,if_neg he,decode]; rfl

lemma length_flatMap_chars (steps : List NameStep) :
    (steps.flatMap NameStep.chars).length = steps.length + steps.countP NameStep.endsLine := by
  induction steps with
  | nil => rfl
  | cons step steps ih =>
    rw [flatMap_cons,length_append,ih,length_cons,countP_cons,NameStep.chars]
    cases step.endsLine with
    | true => simp only [if_true,length_cons,length_nil]; omega
    | false => simp only [Bool.false_eq_true,if_false,length_cons,length_nil]; omega

/-- Steps come to one character each exactly if none of them is ended by a line end of two characters. -/
lemma flatMap_chars_eq_map_iff (steps : List NameStep) :
    steps.flatMap NameStep.chars = steps.map NameStep.char ↔ ∀ step ∈ steps, step.endsLine = false := by
  constructor
  · intro heq step hs
    have hl := congrArg List.length heq
    rw [length_flatMap_chars,length_map] at hl
    have hn : steps.countP NameStep.endsLine = 0 := by omega
    exact Bool.eq_false_iff.mpr (countP_eq_zero.mp hn step hs)
  · intro h
    rw [map_eq_flatMap]
    refine flatMap_congr fun step hs => ?_
    rw [NameStep.chars,h step hs]; rfl

end Lexer

namespace Token

def label (t : Token) : String := if t.kind = .dimension then t.unit else t.name

lemma label_of_named {s r : List Char} {t : Token} (hn : Lexer.Named s (Lexer.next s) r)
    (hk : t.kind = (Lexer.next s).kind) (ht : t.text = String.ofList (Lexer.next s).text) :
    t.label = String.ofList (decode (Lexer.spanName r).1) := by
  have hl : t.text.toList = (Lexer.next s).text := by rw [ht,String.toList_ofList]
  generalize Lexer.next s = lexeme at hn hk hl
  cases hn with
  | dimension hi =>
    have hs := Lexer.isStable_spanNumber s _ _ (Lexer.spanName_append (Lexer.spanNumber s).2).symm
    rw [label,if_pos hk,unit,hk,hl,hs]
  | function hi hrs =>
    have hr : t.text.toList.reverse = '(' :: (Lexer.spanName s).1.reverse := by
      rw [hl,reverse_append]; rfl
    rw [label,hk,if_neg Kind.noConfusion,name,rawName,hk,hr]
    exact congrArg (fun name => String.ofList (decode name)) (reverse_reverse _)
  | ident => rw [label,hk,if_neg Kind.noConfusion,name,rawName,hk,hl]
  | atKeyword | hash | idHash =>
    rw [label,hk,if_neg Kind.noConfusion,name,rawName,hk,hl]; rfl

/-- A token of a source whose name is cut off `r`, which is what is left of the source there. -/
def IsNamedAt (source : String) (t : Token) (r : List Char) : Prop :=
  ∃ before s, before ++ s = source.toList ∧ t.span.start = utf8Length before ∧
    t.kind = (Lexer.next s).kind ∧ t.text = String.ofList (Lexer.next s).text ∧ Lexer.Named s (Lexer.next s) r

/-- The name of a token has one character for each step of the lexer over it, and a line feed behind the
character of a code that is ended by a carriage return and a line feed. So it has one character for each
step exactly if no code is ended like this. -/
theorem label_eq_steps {source : String} {t : Token} (ht : t ∈ scan source)
    (hname : Lexer.hasName t.kind = true) :
    ∃ r, IsNamedAt source t r ∧
      (Lexer.nameSteps r).flatMap Lexer.NameStep.text = (Lexer.spanName r).1 ∧
      t.label.toList = (Lexer.nameSteps r).flatMap Lexer.NameStep.chars ∧
      (t.label.toList = (Lexer.nameSteps r).map Lexer.NameStep.char ↔
        ∀ step ∈ Lexer.nameSteps r, step.endsLine = false) := by
  obtain ⟨before, s, hs, hne, hstart, hkind, htext⟩ :=
    exists_rest_of_mem_scanFrom (Nat.le_refl _) ht
  obtain ⟨r, hnamed⟩ := (Lexer.known_next hne).named (hkind ▸ hname)
  have hlabel : t.label.toList = (Lexer.nameSteps r).flatMap Lexer.NameStep.chars := by
    rw [label_of_named hnamed hkind htext, String.toList_ofList, Lexer.decode_spanName]
  rw [Nat.zero_add] at hstart
  refine ⟨r, ⟨before, s, hs, hstart, hkind, htext, hnamed⟩, Lexer.text_nameSteps r, hlabel, ?_⟩
  rw [hlabel]
  exact Lexer.flatMap_chars_eq_map_iff (Lexer.nameSteps r)

/-- A unit with a code that a tab ends. -/
theorem label_eq_steps_unit :
    ∃ t ∈ scan "a 1\\65\tm", Lexer.hasName t.kind = true ∧ t.label = "em" ∧
      ∃ r, IsNamedAt "a 1\\65\tm" t r ∧
        t.label.toList = (Lexer.nameSteps r).flatMap Lexer.NameStep.chars := by
  have ht : ⟨.dimension, "1\\65\tm", ⟨2, 8⟩⟩ ∈ scan "a 1\\65\tm" := by decide +kernel
  obtain ⟨r, hr, -, hlabel, -⟩ := label_eq_steps ht rfl
  exact ⟨_, ht, rfl, by decide +kernel, r, hr, hlabel⟩

/-- The code in `\41 b`, with a carriage return and a line feed in place of the blank, is one step of the
lexer, but two characters of the name. -/
theorem name_line_end : ∃ t ∈ scan "\\41\r\nb", t.kind = .ident ∧ t.text = "\\41\r\nb" ∧
      (Lexer.spanName "\\41\r\nb".toList).1 = "\\41\r\nb".toList ∧
      (Lexer.nameSteps "\\41\r\nb".toList).map Lexer.NameStep.char = ['A', 'b'] ∧
      t.name = "A\nb" := by
  decide +kernel

end Token

namespace Lexer

def urlSteps (s : List Char) : List NameStep := match s with
  | [] => []
  | c :: rest =>
    if startsEscape (c :: rest) then escapeStep rest :: urlSteps (spanEscape rest).2
    else if c == '\\' || c == ')' || isSpace c then []
    else .plain c :: urlSteps rest
termination_by s.length
decreasing_by
  · exact Nat.lt_succ_of_le (length_spanEscape_le rest)
  · simp

namespace NameStep

/-- Whether a step at the end of a url is lost, which may have nothing behind it. -/
def isLost (bare : Bool) : NameStep → Bool
  | escaped c => isSpace c || bare && c == ')'
  | _ => false

/-- What is left of a step at the end of a url. -/
def trimmed (bare : Bool) : NameStep → NameStep
  | escaped c => if isSpace c || bare && c == ')' then cut else escaped c
  | coded digits _ => coded digits []
  | step => step

/-- The steps that the lexer takes in a url. -/
def IsTaken : NameStep → Prop
  | plain c => c ≠ '\\' ∧ c ≠ ')' ∧ isSpace c = false
  | escaped c => isNewline c = false ∧ isHexDigit c = false
  | coded digits blank =>
    digits ≠ [] ∧ digits.all isHexDigit ∧ digits.length ≤ 6 ∧ blank.all isSpace
  | cut => True

end NameStep

def trimLast (bare : Bool) (steps : List NameStep) : List NameStep :=
  steps.dropLast ++ steps.getLast?.toList.map (NameStep.trimmed bare)

variable {s : List Char}

lemma isSpace_of_isHexDigit {c : Char} (hc : isHexDigit c) : isSpace c = false := by
  rw [Bool.eq_false_iff]
  intro hs
  simp only [isSpace,isNewline,Bool.or_eq_true,beq_iff_eq] at hs
  rcases hs with (rfl | rfl) | (rfl | rfl) | rfl <;> cases hc

lemma all_spanUpTo (p : Char → Bool) (n : Nat) (s : List Char) :
    (spanUpTo p n s).1.all p ∧ (spanUpTo p n s).1.length ≤ n := by
  induction n generalizing s with
  | zero => exact ⟨rfl,Nat.le_refl 0⟩
  | succ n ih =>
    cases s with
    | nil => exact ⟨rfl,Nat.zero_le _⟩
    | cons c s =>
      rw [spanUpTo]
      split
      · rename_i hc
        exact ⟨by rw [all_cons,hc,(ih s).1]; rfl,Nat.succ_le_succ (ih s).2⟩
      · exact ⟨rfl,Nat.zero_le _⟩

lemma all_spanEscapeEnd (s : List Char) : (spanEscapeEnd s).1.all isSpace := by
  unfold spanEscapeEnd
  split
  · rfl
  · rfl
  · split
    · rename_i hs
      rw [all_cons,hs]; rfl
    · rfl

lemma isTaken_escapeStep (hs : s.head?.any isNewline = false) : (escapeStep s).IsTaken := by
  cases s with
  | nil => exact trivial
  | cons c s =>
    rw [escapeStep]
    split
    · rename_i hc
      obtain ⟨hd,hl⟩ := all_spanUpTo isHexDigit 6 (c :: s)
      refine ⟨?_,hd,hl,all_spanEscapeEnd _⟩
      rw [spanUpTo,if_pos hc]
      exact cons_ne_nil _ _
    · rename_i hc
      exact ⟨hs,Bool.eq_false_iff.mpr hc⟩

lemma isTaken_of_mem_urlSteps (s : List Char) : ∀ step ∈ urlSteps s, step.IsTaken := by
  fun_induction urlSteps s with
  | case1 => exact forall_mem_nil _
  | case2 c rest he ih =>
    exact forall_mem_cons.mpr ⟨isTaken_escapeStep (head_of_startsEscape he).2,ih⟩
  | case3 => exact forall_mem_nil _
  | case4 c rest _ hc ih =>
    simp only [Bool.or_eq_true,beq_iff_eq,not_or,Bool.not_eq_true] at hc
    exact forall_mem_cons.mpr ⟨⟨hc.1.1,hc.1.2,hc.2⟩,ih⟩

lemma escapeStep_append {c : Char} (hs : startsEscape (c :: s)) : (escapeStep s).text ++ (spanEscape s).2 = c :: s := by
  rw [text_escapeStep,cons_append,spanEscape_append,(head_of_startsEscape hs).1]

lemma isPrefix_text_urlSteps (s : List Char) : (urlSteps s).flatMap NameStep.text <+: s := by
  fun_induction urlSteps s with
  | case1 => exact nil_prefix
  | case2 c rest he ih =>
    rw [flatMap_cons,← escapeStep_append he]
    exact (prefix_append_right_inj _).mpr ih
  | case3 => exact nil_prefix
  | case4 c rest _ _ ih => exact (prefix_append_right_inj [c]).mpr ih

lemma urlSteps_of_isSpace {c : Char} (hc : isSpace c) : urlSteps (c :: s) = [] := by
  have he : ¬startsEscape (c :: s) := by
    intro he
    rw [(head_of_startsEscape he).1] at hc; cases hc
  rw [urlSteps,if_neg he,hc,Bool.or_true]; rfl

/-- The steps over a target take all of a url but the blanks and the parenthesis that end it. -/
lemma text_unquoted (h : (unquoted s).kind = .url) :
    ∃ blank closing, blank.all isSpace ∧ (closing = [')'] ∨ closing = [] ∧ (unquoted s).rest = []) ∧
      (unquoted s).text = (urlSteps s).flatMap NameStep.text ++ (blank ++ closing) := by
  fun_induction unquoted s with
  | case1 =>
    rw [urlSteps]
    exact ⟨[],[],rfl,.inr ⟨rfl,rfl⟩,rfl⟩
  | case2 rest =>
    rw [urlSteps]
    exact ⟨[],[')'],rfl,.inl rfl,rfl⟩
  | case3 c rest _ hc blank hr =>
    have hb : blank.all isSpace := by rw [all_cons,hc,all_takeWhile]; rfl
    rw [urlSteps_of_isSpace hc]
    exact ⟨blank,[],hb,.inr ⟨rfl,rfl⟩,(append_nil blank).symm⟩
  | case4 c rest _ hc blank post hr =>
    have hb : blank.all isSpace := by rw [all_cons,hc,all_takeWhile]; rfl
    rw [urlSteps_of_isSpace hc]
    exact ⟨blank,[')'],hb,.inl rfl,rfl⟩
  | case7 c rest _ _ _ hc he escape tail ih =>
    obtain ⟨blank,closing,hb,hcl,ht⟩ := ih h
    refine ⟨blank,closing,hb,hcl,?_⟩
    rw [urlSteps,if_pos he,flatMap_cons,text_escapeStep,append_assoc,← ht,eq_of_beq hc]
  | case9 c rest hp hs _ hc tail ih =>
    obtain ⟨blank,closing,hb,hcl,ht⟩ := ih h
    have he : ¬startsEscape (c :: rest) := by
      intro he
      rw [(head_of_startsEscape he).1] at hc
      exact hc rfl
    have hn : ¬(c == '\\' || c == ')' || isSpace c) := by
      simp only [Bool.or_eq_true,beq_iff_eq,not_or]
      exact ⟨⟨fun hc' => hc (beq_iff_eq.mpr hc'),hp⟩,hs⟩
    refine ⟨blank,closing,hb,hcl,?_⟩
    rw [urlSteps,if_neg he,if_neg hn,flatMap_cons,append_assoc,← ht]; rfl
  | _ => cases h

lemma trimLast_concat (bare : Bool) (steps : List NameStep) (last : NameStep) :
    trimLast bare (steps ++ [last]) = steps ++ [last.trimmed bare] := by
  rw [trimLast,dropLast_concat,getLast?_concat]; rfl

namespace NameStep
variable {bare : Bool} {step : NameStep}

lemma isTaken_trimmed (h : step.IsTaken) (bare : Bool) : (step.trimmed bare).IsTaken := by
  cases step with
  | plain c => exact h
  | escaped c =>
    rw [trimmed]
    split
    · exact trivial
    · exact h
  | coded digits blank => exact ⟨h.1,h.2.1,h.2.2.1,rfl⟩
  | cut => exact h

lemma isPrefix_text_trimmed (bare : Bool) (step : NameStep) : (step.trimmed bare).text <+: step.text := by
  cases step with
  | plain | cut => exact prefix_rfl
  | escaped c =>
    rw [trimmed]
    split
    · exact ⟨[c],rfl⟩
    · exact prefix_rfl
  | coded digits blank => exact ⟨blank,by simp [trimmed,text]⟩

lemma decode_trimmed (h : step.IsTaken) (bare : Bool) :
    decode (step.trimmed bare).text = (step.trimmed bare).chars := by
  have hcut : decode cut.text = cut.chars := by simp [decode,text,chars,char,endsLine]
  cases step with
  | plain c => exact (decode_cons h.1 []).trans (by rw [decode]; rfl)
  | escaped c =>
    rw [trimmed]
    split
    · exact hcut
    · exact (decode_escape h.1 h.2 []).trans (by rw [decode]; rfl)
  | coded digits blank =>
    obtain ⟨c,digits,rfl⟩ := exists_cons_of_ne_nil h.1
    have hs := spanUpTo_append_of_all h.2.1 h.2.2.1 (head?_nil ▸ Option.any_none)
    have hc : isHexDigit c := all_eq_true.mp h.2.1 c mem_cons_self
    exact (decode_digits hc hs).trans (by rw [dropSpace,decode]; rfl)
  | cut => exact hcut

lemma exists_first (h : step.IsTaken) : ∃ first rest, step.text = first :: rest ∧ isSpace first = false := by
  cases step with
  | plain c => exact ⟨c,[],rfl,h.2.2⟩
  | escaped | coded | cut => exact ⟨'\\',_,rfl,rfl⟩

lemma exists_last (h : step.IsTaken) (bare : Bool) :
    ∃ front last, (step.trimmed bare).text = front ++ [last] ∧ isSpace last = false ∧
      (last = ')' → step = escaped ')') := by
  cases step with
  | plain c => exact ⟨[],c,rfl,h.2.2,fun hc => absurd hc h.2.1⟩
  | escaped c =>
    rw [trimmed]
    split
    · exact ⟨[],'\\',rfl,rfl,fun hc => absurd hc (by decide)⟩
    · rename_i hc
      rw [Bool.or_eq_true,not_or] at hc
      exact ⟨['\\'],c,rfl,Bool.eq_false_iff.mpr hc.1,congrArg escaped⟩
  | coded digits blank =>
    obtain rfl | ⟨front,last,rfl⟩ := eq_nil_or_concat digits
    · exact absurd rfl h.1
    · have hl : isHexDigit last := all_eq_true.mp h.2.1 last (by simp)
      refine ⟨'\\' :: front,last,by simp [trimmed,text],isSpace_of_isHexDigit hl,?_⟩
      rintro rfl
      cases hl
  | cut => exact ⟨[],'\\',rfl,rfl,fun hc => absurd hc (by decide)⟩

/-- Blanks behind a step are dropped, and a blank of the step with them. -/
lemma exists_blank (h : step.IsTaken) (hs : bare → step ≠ escaped ')') :
    ∃ blank, blank.all isSpace ∧ step.text = (step.trimmed bare).text ++ blank := by
  cases step with
  | plain | cut => exact ⟨[],rfl,(append_nil _).symm⟩
  | escaped c =>
    rw [trimmed]
    split
    · rename_i hc
      have hsp : isSpace c := by
        rcases Bool.or_eq_true_iff.mp hc with hc | hc
        · exact hc
        · obtain ⟨hbare,hc⟩ := Bool.and_eq_true_iff.mp hc
          exact absurd (congrArg escaped (eq_of_beq hc)) (hs hbare)
      exact ⟨[c],by rw [all_cons,hsp]; rfl,rfl⟩
    · exact ⟨[],rfl,(append_nil _).symm⟩
  | coded digits blank => exact ⟨blank,h.2.2.2,by simp [trimmed,text]⟩

end NameStep

lemma isPrefix_text_trimLast (bare : Bool) (steps : List NameStep) :
    (trimLast bare steps).flatMap NameStep.text <+: steps.flatMap NameStep.text := by
  obtain rfl | ⟨steps,last,rfl⟩ := eq_nil_or_concat steps
  · exact nil_prefix
  · rw [concat_eq_append,trimLast_concat,flatMap_append,flatMap_append,flatMap_singleton,flatMap_singleton]
    exact (prefix_append_right_inj _).mpr (NameStep.isPrefix_text_trimmed bare last)

lemma decode_trimLast_cons {bare : Bool} {step : NameStep} {steps : List NameStep} (h : step.IsTaken)
    (hs : decode (step.text ++ (trimLast bare steps).flatMap NameStep.text) =
      step.chars ++ decode ((trimLast bare steps).flatMap NameStep.text))
    (hd : decode ((trimLast bare steps).flatMap NameStep.text) = (trimLast bare steps).flatMap NameStep.chars) :
    decode ((trimLast bare (step :: steps)).flatMap NameStep.text) =
      (trimLast bare (step :: steps)).flatMap NameStep.chars := by
  cases steps with
  | nil =>
    change decode ((step.trimmed bare).text ++ []) = (step.trimmed bare).chars ++ []
    rw [append_nil,append_nil,NameStep.decode_trimmed h]
  | cons next steps => exact hs.trans (congrArg _ hd)

lemma decode_trimLast (bare : Bool) (s : List Char) : decode ((trimLast bare (urlSteps s)).flatMap NameStep.text) =
      (trimLast bare (urlSteps s)).flatMap NameStep.chars := by
  have ht := isTaken_of_mem_urlSteps s
  fun_induction urlSteps s with
  | case1 | case3 =>
    change decode [] = []
    rw [decode]
  | case2 c rest he ih =>
    obtain ⟨h,ht⟩ := forall_mem_cons.mp ht
    obtain ⟨tail,hm⟩ := (isPrefix_text_trimLast bare _).trans (isPrefix_text_urlSteps (spanEscape rest).2)
    exact decode_trimLast_cons h (decode_escapeStep (head_of_startsEscape he).2 hm.symm) (ih ht)
  | case4 c rest _ _ ih =>
    obtain ⟨h,ht⟩ := forall_mem_cons.mp ht
    exact decode_trimLast_cons h (decode_cons h.1 _) (ih ht)

lemma dropWhile_of_head? {p : Char → Bool} (h : s.head?.any p = false) : s.dropWhile p = s := by
  cases s with
  | nil => rfl
  | cons c s => exact dropWhile_cons_of_neg (Bool.eq_false_iff.mp h)

lemma trimBy_between {p : Char → Bool} {leading text blank : List Char}
    (hl : leading.all p) (hb : blank.all p) (hh : text.head?.any p = false)
    (hlast : text.reverse.head?.any p = false) : trimBy p (leading ++ (text ++ blank)) = text := by
  have hr : blank.reverse.all p := all_reverse.trans hb
  rw [trimBy,dropWhile_append_of_pos (all_eq_true.mp hl)]
  cases text with
  | nil =>
    rw [nil_append,← append_nil blank,dropWhile_append_of_pos (all_eq_true.mp hb)]; rfl
  | cons c text =>
    have hd : (c :: text ++ blank).dropWhile p = c :: text ++ blank := dropWhile_of_head? hh
    rw [hd,reverse_append,dropWhile_append_of_pos (all_eq_true.mp hr),dropWhile_of_head? hlast,reverse_reverse]

lemma dropClosing_concat (s : List Char) : Token.dropClosing (s ++ [')']) = s := by
  rw [Token.dropClosing,reverse_append]
  exact reverse_reverse s

lemma dropClosing_eq_self (h : s.reverse.head? ≠ some ')') : Token.dropClosing s = s := by
  rw [Token.dropClosing]
  split
  · rename_i hs
    rw [hs] at h
    exact absurd rfl h
  · rfl

variable {blank closing : List Char}

lemma head?_ne_of_ended (hb : blank.all isSpace)
    (hs : blank = [] → s.reverse.head? ≠ some ')') : (s ++ blank).reverse.head? ≠ some ')' := by
  rw [reverse_append]
  cases hr : blank.reverse with
  | nil => exact hs (reverse_eq_nil_iff.mp hr)
  | cons c rest =>
    have hc := all_eq_true.mp hb c (mem_reverse.mp (hr ▸ mem_cons_self))
    rintro ⟨⟩
    cases hc

lemma dropClosing_ended (hb : blank.all isSpace) (hc : closing = [')'] ∨ closing = [])
    (hs : (blank ++ closing).isEmpty → s.reverse.head? ≠ some ')') :
    Token.dropClosing (s ++ (blank ++ closing)) = s ++ blank := by
  rcases hc with rfl | rfl
  · rw [← append_assoc,dropClosing_concat]
  · rw [append_nil] at hs ⊢
    exact dropClosing_eq_self (head?_ne_of_ended hb fun h => hs (isEmpty_iff.mpr h))

section
variable {leading : List Char} {steps : List NameStep} (ht : ∀ step ∈ steps, step.IsTaken)
include ht

lemma ends_trimLast (bare : Bool) : ((trimLast bare steps).flatMap NameStep.text).head?.any isSpace = false ∧
      ((trimLast bare steps).flatMap NameStep.text).reverse.head?.any isSpace = false := by
  obtain rfl | ⟨steps,last,rfl⟩ := eq_nil_or_concat steps
  · exact ⟨rfl,rfl⟩
  · rw [concat_eq_append] at ht ⊢
    obtain ⟨hs,hl⟩ := forall_mem_append.mp ht
    have hl := hl last mem_cons_self
    rw [trimLast_concat,flatMap_append,flatMap_singleton]
    constructor
    · cases steps with
      | nil =>
        obtain ⟨c,rest,hc,hsp⟩ := NameStep.exists_first (NameStep.isTaken_trimmed hl bare)
        rw [hc]
        exact hsp
      | cons step steps =>
        obtain ⟨c,rest,hc,hsp⟩ := NameStep.exists_first (hs step mem_cons_self)
        rw [flatMap_cons,hc]
        exact hsp
    · obtain ⟨front,c,hc,hsp,-⟩ := NameStep.exists_last hl bare
      rw [hc,← append_assoc,reverse_append]
      exact hsp

/-- Without the closing parenthesis, the text has only blanks around what is left of the target. -/
lemma exists_dropClosing (hb : blank.all isSpace) (hc : closing = [')'] ∨ closing = []) (hl : leading.all isSpace) :
    ∃ behind, behind.all isSpace ∧ Token.dropClosing (leading ++ (steps.flatMap NameStep.text ++ (blank ++ closing))) =
        leading ++ ((trimLast (blank ++ closing).isEmpty steps).flatMap NameStep.text ++ behind) := by
  obtain rfl | ⟨steps,last,rfl⟩ := eq_nil_or_concat steps
  · refine ⟨blank,hb,dropClosing_ended hb hc fun _ => ?_⟩
    have hnil : ([] : List Char).reverse.head? ≠ some ')' := by decide
    exact head?_ne_of_ended hl fun _ => hnil
  · rw [concat_eq_append] at ht ⊢
    have hlast := ht last (mem_append_right _ mem_cons_self)
    rw [trimLast_concat,flatMap_append,flatMap_append,flatMap_singleton,flatMap_singleton]
    by_cases hlost : (blank ++ closing).isEmpty ∧ last = .escaped ')'
    · obtain ⟨hempty,rfl⟩ := hlost
      have htext : leading ++ (steps.flatMap NameStep.text ++ ['\\',')'] ++ []) =
          leading ++ (steps.flatMap NameStep.text ++ ['\\'] ++ []) ++ [')'] := by simp
      refine ⟨[],rfl,?_⟩
      rw [hempty,isEmpty_iff.mp hempty]
      exact (congrArg Token.dropClosing htext).trans (dropClosing_concat _)
    · have hescaped : (blank ++ closing).isEmpty → last ≠ .escaped ')' := fun h hl => hlost ⟨h,hl⟩
      obtain ⟨behind,hbehind,htext⟩ := NameStep.exists_blank hlast hescaped
      obtain ⟨front,c,hfront,-,hclose⟩ := NameStep.exists_last hlast (blank ++ closing).isEmpty
      refine ⟨behind ++ blank,by rw [all_append,hbehind,hb]; rfl,?_⟩
      rw [← append_assoc,dropClosing_ended hb hc ?_,htext]
      · simp only [append_assoc]
      · intro hempty
        rw [htext,hfront,← append_assoc,← append_assoc]
        refine head?_ne_of_ended hbehind fun _ => ?_
        rw [← append_assoc,reverse_append]
        rintro ⟨⟩
        exact hescaped hempty (hclose rfl)

/-- The text of a url without the closing parenthesis and the blanks around the target. -/
lemma trimBy_dropClosing (hb : blank.all isSpace) (hc : closing = [')'] ∨ closing = []) (hl : leading.all isSpace) :
    trimBy isSpace (Token.dropClosing (leading ++ (steps.flatMap NameStep.text ++ (blank ++ closing)))) =
      (trimLast (blank ++ closing).isEmpty steps).flatMap NameStep.text := by
  obtain ⟨behind,hbehind,h⟩ := exists_dropClosing ht hb hc hl
  obtain ⟨hhead,hlast⟩ := ends_trimLast ht (blank ++ closing).isEmpty
  rw [h,trimBy_between hl hbehind hhead hlast]

end

lemma char_trimmed_eq_iff (bare : Bool) (step : NameStep) :
    (step.trimmed bare).char = step.char ↔ step.isLost bare = false := by
  cases step with
  | plain | coded | cut => exact ⟨fun _ => rfl,fun _ => rfl⟩
  | escaped c =>
    rw [NameStep.trimmed,NameStep.isLost]
    split
    · rename_i hc
      rw [hc]
      constructor
      · rintro rfl
        cases bare <;> cases hc
      · exact Bool.noConfusion
    · rename_i hc
      exact ⟨fun _ => Bool.eq_false_iff.mpr hc,fun _ => rfl⟩

lemma endsLine_trimmed (bare : Bool) (step : NameStep) : (step.trimmed bare).endsLine = false := by
  cases step with
  | plain | coded | cut => rfl
  | escaped c =>
    rw [NameStep.trimmed]
    split <;> rfl

lemma flatMap_chars_trimLast_eq_map_iff (bare : Bool) (steps : List NameStep) :
    (trimLast bare steps).flatMap NameStep.chars = steps.map NameStep.char ↔
      (∀ step ∈ steps.dropLast, step.endsLine = false) ∧ ∀ step ∈ steps.getLast?, step.isLost bare = false := by
  obtain rfl | ⟨steps,last,rfl⟩ := eq_nil_or_concat steps
  · exact ⟨fun _ => ⟨forall_mem_nil _,fun _ h => nomatch h⟩,fun _ => rfl⟩
  · have hchars : (last.trimmed bare).chars = [(last.trimmed bare).char] := by
      rw [NameStep.chars,endsLine_trimmed]; rfl
    rw [concat_eq_append,trimLast_concat,dropLast_concat,getLast?_concat,flatMap_append,map_append,
      flatMap_singleton,hchars]
    constructor
    · intro h
      obtain ⟨hs,hl⟩ := append_inj' h rfl
      refine ⟨(flatMap_chars_eq_map_iff steps).mp hs,?_⟩
      rintro _ ⟨⟩
      exact (char_trimmed_eq_iff bare last).mp (List.cons.inj hl).1
    · rintro ⟨hs,hl⟩
      rw [(flatMap_chars_eq_map_iff steps).mpr hs,(char_trimmed_eq_iff bare last).mpr (hl last rfl)]
      rfl

end Lexer

namespace Token

lemma bne_of_sameLetters {name : List Char} (h : sameLetters (String.ofList name) "url") : ∀ c ∈ name, c != '(' := by
  rw [sameLetters,Text.lower,String.toList_ofList,beq_iff_eq] at h
  have hname : name.map Char.toLower = ['u','r','l'] := String.ofList_inj.mp h
  intro c hc
  rw [bne_iff_ne]
  rintro rfl
  have hmem : Char.toLower '(' ∈ name.map Char.toLower := mem_map_of_mem hc
  rw [hname] at hmem
  exact absurd hmem (by decide)

lemma urlValue_of_text {t : Token} {name rest : List Char} (hn : ∀ c ∈ name, c != '(')
    (ht : t.text.toList = name ++ '(' :: rest) :
    t.urlValue = String.ofList (decode (trimBy isSpace (dropClosing rest))) := by
  have hd : t.text.toList.dropWhile (· != '(') = '(' :: rest := by
    rw [ht,dropWhile_append_of_pos hn]; rfl
  rw [urlValue,hd]

/-- A url with the steps over its target, the blanks behind them and the parenthesis that closes it, which
is left out only where the source ends. -/
structure IsUrlAt (source : String) (t : Token) (target blank closing : List Char) : Prop where
  opens : ∃ before name leading, before ++ (name ++ '(' :: (leading ++ target)) = source.toList ∧
    t.span.start = utf8Length before ∧ sameLetters (String.ofList name) "url" = true ∧
    leading.all isSpace = true ∧ target.head?.any isSpace = false ∧
    t.text.toList = name ++ '(' :: (leading ++
      ((Lexer.urlSteps target).flatMap Lexer.NameStep.text ++ (blank ++ closing)))
  ends : ∃ rest, (Lexer.urlSteps target).flatMap Lexer.NameStep.text ++ (blank ++ closing) ++ rest =
    target ∧ blank.all isSpace = true ∧ (closing = [')'] ∨ closing = [] ∧ rest = [])

/-- The value of a url has one character for each step of the lexer over its target, with two
exceptions. Behind the character of a code that is ended by a carriage return and a line feed stands a
line feed, if more steps follow. And if the last step is an escaped blank, or an escaped parenthesis
with which the source ends, the replacement character stands for it. -/
theorem urlValue_eq_steps {source : String} {t : Token} (ht : t ∈ scan source)
    (hurl : t.kind = .url) :
    ∃ target blank closing, IsUrlAt source t target blank closing ∧
      t.urlValue.toList = (Lexer.trimLast (blank ++ closing).isEmpty (Lexer.urlSteps target)).flatMap
        Lexer.NameStep.chars ∧
      (t.urlValue.toList = (Lexer.urlSteps target).map Lexer.NameStep.char ↔
        (∀ step ∈ (Lexer.urlSteps target).dropLast, step.endsLine = false) ∧
          ∀ step ∈ (Lexer.urlSteps target).getLast?,
            step.isLost (blank ++ closing).isEmpty = false) := by
  obtain ⟨before, s, hs, hne, rfl⟩ := exists_scanner_of_mem_scanFrom ht
  obtain ⟨rest, hname, hopens, hlexeme⟩ := (Lexer.known_next hne).url hurl
  have hkind : (Lexer.unquoted (rest.dropWhile isSpace)).kind = .url := by
    rw [Scanner.token, hlexeme] at hurl
    exact hurl
  obtain ⟨blank, closing, hblank, hclosing, htext⟩ := Lexer.text_unquoted hkind
  have hleading : (rest.takeWhile isSpace).all isSpace := all_takeWhile
  have htoken : (Scanner.token ⟨0 + utf8Length before, s⟩).text.toList =
      (Lexer.spanName s).1 ++ '(' :: (rest.takeWhile isSpace ++
        ((Lexer.urlSteps (rest.dropWhile isSpace)).flatMap Lexer.NameStep.text ++
          (blank ++ closing))) := by
    rw [Scanner.token, String.toList_ofList, hlexeme, htext]
    exact append_assoc ..
  have hvalue := urlValue_of_text (bne_of_sameLetters hname) htoken
  rw [Lexer.trimBy_dropClosing (Lexer.isTaken_of_mem_urlSteps _) hblank (hclosing.imp_right And.left)
    hleading, Lexer.decode_trimLast] at hvalue
  refine ⟨rest.dropWhile isSpace, blank, closing, ⟨?_, ?_⟩, ?_, ?_⟩
  · refine ⟨before, (Lexer.spanName s).1, rest.takeWhile isSpace, ?_, Nat.zero_add _, hname, hleading,
      ?_, htoken⟩
    · rw [takeWhile_append_dropWhile, ← hopens, Lexer.spanName_append, hs]
    · have hh := head?_dropWhile_not isSpace rest
      cases hd : (rest.dropWhile isSpace).head? with
      | none => rfl
      | some c =>
        rw [hd] at hh
        exact hh
  · refine ⟨(Lexer.unquoted (rest.dropWhile isSpace)).rest, ?_, hblank, hclosing⟩
    rw [← htext, Lexer.unquoted_append]
  · rw [hvalue, String.toList_ofList]
  · rw [hvalue, String.toList_ofList]
    exact Lexer.flatMap_chars_trimLast_eq_map_iff ..

/-- A url with an escaped parenthesis and a code. -/
theorem urlValue_eq_steps_escapes :
    ∃ t ∈ scan "a url( b\\)\\20 c )", t.kind = .url ∧ t.urlValue = "b) c" ∧
      ∃ target blank closing, IsUrlAt "a url( b\\)\\20 c )" t target blank closing ∧
        t.urlValue.toList = (Lexer.trimLast (blank ++ closing).isEmpty (Lexer.urlSteps target)).flatMap
          Lexer.NameStep.chars := by
  have ht : ⟨.url, "url( b\\)\\20 c )", ⟨2, 17⟩⟩ ∈ scan "a url( b\\)\\20 c )" := by decide +kernel
  obtain ⟨target, blank, closing, hat, hvalue, -⟩ := urlValue_eq_steps ht rfl
  exact ⟨_, ht, rfl, by decide +kernel, target, blank, closing, hat, hvalue⟩

/-- An escaped blank before the parenthesis, an escaped parenthesis at the end of the source, and a code
that a carriage return and a line feed end. -/
theorem urlValue_exceptions :
    (∃ t ∈ scan "url(a\\ )", t.kind = .url ∧ t.text = "url(a\\ )" ∧
      (Lexer.urlSteps "a\\ )".toList).map Lexer.NameStep.char = ['a', ' '] ∧ t.urlValue = "a�") ∧
    (∃ t ∈ scan "url(a\\)", t.kind = .url ∧ t.text = "url(a\\)" ∧
      (Lexer.urlSteps "a\\)".toList).map Lexer.NameStep.char = ['a', ')'] ∧ t.urlValue = "a�") ∧
    ∃ t ∈ scan "url(\\31\r\n2)", t.kind = .url ∧ t.text = "url(\\31\r\n2)" ∧
      (Lexer.urlSteps "\\31\r\n2)".toList).map Lexer.NameStep.char = ['1', '2'] ∧
        t.urlValue = "1\n2" := by
  decide +kernel

end Token
end Css
