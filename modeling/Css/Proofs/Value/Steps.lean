import Css.Value.Parser
import Mathlib.Tactic.Lemma

/-!
# Steps of the parser of values

A token that is no bracket adds to the innermost list, whatever is open around it. Brackets are
closed, innermost first, by those of their kind.
-/
namespace Css.Token
open List

def Kind.isLeaf (kind : Kind) : Bool := !kind.opens && !kind.closes

inductive Nested : List Kind → Prop
  | nil : Nested []
  | leaf {kind : Kind} {ks : List Kind} (hleaf : kind.isLeaf = true) (h : Nested ks) :
      Nested (kind :: ks)
  | group {opening closing : Kind} {inner ks : List Kind}
      (hclosing : opening.closing? = some closing) (hinner : Nested inner) (h : Nested ks) :
      Nested (opening :: inner ++ closing :: ks)

def closesAll : List Kind → List Kind → Bool
  | due, [] => due.isEmpty
  | due, kind :: ks =>
    match kind.closing? with
    | some closing => closesAll (closing :: due) ks
    | none =>
      if kind.closes then due.head? == some kind && closesAll due.tail ks
      else closesAll due ks

section
variable {kind : Kind} (due ks : List Kind)

lemma closesAll_opening {closing : Kind} (h : kind.closing? = some closing) :
    closesAll due (kind :: ks) = closesAll (closing :: due) ks := by
  rw [closesAll,h]

lemma closesAll_closing (h : kind.closes) :
    closesAll due (kind :: ks) = (due.head? == some kind && closesAll due.tail ks) := by
  have hn : kind.closing? = none := by cases kind <;> first | rfl | cases h
  rw [closesAll,hn,h]; rfl

lemma closesAll_leaf (h : kind.isLeaf) : closesAll due (kind :: ks) = closesAll due ks := by
  simp only [Kind.isLeaf,Bool.and_eq_true,Bool.not_eq_true'] at h
  have hn : kind.closing? = none := Option.isNone_iff_eq_none.mp (Option.isSome_eq_false_iff.mp h.1)
  rw [closesAll,hn,h.2]; rfl

end

lemma Kind.closes_of_closing? {opening closing : Kind} (h : opening.closing? = some closing) : closing.closes := by
  cases opening <;> cases h <;> rfl

namespace Nested

lemma append {ks kinds' : List Kind} (h : Nested ks) (h' : Nested kinds') : Nested (ks ++ kinds') := by
  induction h with
  | nil => exact h'
  | leaf hl _ ih => exact .leaf hl ih
  | group hc hi _ _ ih =>
    rw [append_assoc]
    exact .group hc hi ih

lemma closesAll_append {ks : List Kind} (h : Nested ks) (due rest : List Kind) :
    closesAll due (ks ++ rest) = closesAll due rest := by
  induction h generalizing due rest with
  | nil => rfl
  | leaf hl _ ih => rw [cons_append,closesAll_leaf due _ hl,ih]
  | @group opening closing _ _ hc _ _ ihinner ih =>
    rw [append_assoc,cons_append,closesAll_opening due _ hc,ihinner,
      cons_append,closesAll_closing _ _ (Kind.closes_of_closing? hc),ih]
    simp

end Nested

def Completes : List Kind → List Kind → Prop
  | [], ks => Nested ks
  | closing :: due, ks =>
    ∃ inner rest, ks = inner ++ closing :: rest ∧ Nested inner ∧ Completes due rest

lemma Completes.append {due ks kinds' : List Kind} (h : Nested ks)
    (h' : Completes due kinds') : Completes due (ks ++ kinds') := by
  cases due with
  | nil => exact h.append h'
  | cons closing due =>
    obtain ⟨inner,rest,rfl,hi,hr⟩ := h'
    exact ⟨ks ++ inner,rest,(append_assoc _ _ _).symm,h.append hi,hr⟩

lemma completes_of_closesAll {due ks : List Kind} (h : closesAll due ks) : Completes due ks := by
  induction ks generalizing due with
  | nil =>
    rw [isEmpty_iff.mp h]
    exact .nil
  | cons kind ks ih =>
    cases hc : kind.closing? with
    | some closing =>
      rw [closesAll_opening due ks hc] at h
      obtain ⟨inner,rest,rfl,hi,hr⟩ := ih h
      have hg : Nested (kind :: inner ++ [closing]) := .group hc hi .nil
      have ha : kind :: (inner ++ closing :: rest) = kind :: inner ++ [closing] ++ rest := by simp
      rw [ha]
      exact hr.append hg
    | none =>
      cases hcl : kind.closes with
      | true =>
        rw [closesAll_closing due ks hcl,Bool.and_eq_true,beq_iff_eq] at h
        obtain ⟨due,rfl⟩ := head?_eq_some_iff.mp h.1
        exact ⟨[],ks,rfl,.nil,ih h.2⟩
      | false =>
        have hl : kind.isLeaf := by
          rw [Kind.isLeaf,Kind.opens,hc,hcl]; rfl
        rw [closesAll_leaf due ks hl] at h
        exact (ih h).append (.leaf hl .nil)

lemma nested_iff_closesAll {ks : List Kind} : Nested ks ↔ closesAll [] ks := by
  constructor
  · intro h
    rw [← append_nil ks,h.closesAll_append]; rfl
  · exact completes_of_closesAll

instance (ks : List Kind) : Decidable (Nested ks) := decidable_of_iff _ nested_iff_closesAll.symm

end Css.Token

namespace Css
open List Token

def Token.Kind.isBarred : Kind → Bool
  | .badString | .badUrl | .cdo | .cdc | .eof => true
  | _ => false

namespace Value

lemma kind_cases (kind : Kind) : kind.isBarred ∨ kind.isBarred = false ∧ (kind.isLeaf ∨ kind.opens ∨ kind.closes) := by
  cases kind <;> decide

def leafRange? (t : Token) (rest : List Token) : Option (List Token) :=
  if t.kind = .ident then range? t rest else none

def leaf? (file : SourceFile) (t : Token) (range : Option (List Token)) : Option Component :=
  match t.kind with
  | .ident =>
    match range with
    | some parts => some (.unicodeRange (String.join (t.text :: parts.map Token.text)))
    | none => some (.ident t.name)
  | .atKeyword => some (.atKeyword t.name)
  | .hash | .idHash => some (hashComponent t.name)
  | .string => some (.string t.stringValue)
  | .url => some (.url t.urlValue (file.location t.span))
  | .number => some (.number t.number)
  | .percentage => some (.percentage t.number)
  | .dimension => some (.dimension t.number t.unit)
  | .delim => t.delim?.map Component.delim
  | .colon => some .colon
  | .semicolon => some .semicolon
  | .comma => some .comma
  | _ => none

def addLeaf (file : SourceFile) (stop : Nat) (t : Token) (range : Option (List Token))
    (xs : List Component) : List Component :=
  let xs := separate stop t.span.start xs
  if t.kind = .whitespace then pushBlank xs
  else
    match leaf? file t range with
    | some c => if t.kind.isNumeric then pushNumeric stop t c xs else c :: xs
    | none => xs

variable {file : SourceFile} {dashed : Bool} {t : Token} {rest : List Token} {stk : List Frame}
  {xs : List Component} {stop : Nat}

lemma parseFrom_leaf (hl : t.kind.isLeaf) (hb : t.kind.isBarred = false) :
    parseFrom file dashed 0 stk xs stop (t :: rest) = parseFrom file dashed ((leafRange? t rest).getD []).length stk
        (addLeaf file stop t (leafRange? t rest) xs)
        (endOfTokens t ((leafRange? t rest).getD [])) rest := by
  rcases stk with _ | ⟨frame,stk⟩
  all_goals
    rw [parseFrom.eq_def,addLeaf,leafRange?,leaf?.eq_def]
    dsimp only
    cases hk : t.kind with
    | ident => cases range? t rest <;> rfl
    | delim => cases t.delim? <;> rfl
    | function | leftParen | leftBracket | leftBrace | rightParen | rightBracket | rightBrace =>
      rw [hk] at hl; cases hl
    | badString | badUrl | cdo | cdc | eof =>
      rw [hk] at hb; cases hb
    | _ => rfl

lemma parseFrom_skip (file : SourceFile) (dashed : Bool) (skip : Nat) (stk : List Frame)
    (xs : List Component) (stop : Nat) (ts : List Token) :
    parseFrom file dashed skip stk xs stop ts = parseFrom file dashed 0 stk xs stop (ts.drop skip) := by
  induction ts generalizing skip with
  | nil => cases stk <;> cases skip <;> rfl
  | cons t rest ih =>
    cases skip with
    | zero => rfl
    | succ skip => rw [parseFrom,ih,drop_succ_cons]

lemma prefix_rangeParts (stop : Nat) (tokens : List Token) : rangeParts stop tokens <+: tokens := by
  induction tokens generalizing stop with
  | nil => exact prefix_refl _
  | cons t rest ih =>
    rw [rangeParts]
    split
    · exact cons_prefix_cons.mpr ⟨rfl,ih t.span.stop⟩
    · exact nil_prefix

lemma eq_rangeParts_of_range? {ps : List Token} (h : range? t rest = some ps) : ps = rangeParts t.span.stop rest := by
  rw [range?] at h
  split at h
  · dsimp only at h
    split at h
    · exact (Option.some.inj h).symm
    · cases h
  · cases h

lemma prefix_of_range? {ps : List Token} (h : range? t rest = some ps) : ps <+: rest := by
  rw [eq_rangeParts_of_range? h]
  exact prefix_rangeParts t.span.stop rest

lemma kind_of_isRangePart (h : isRangePart t) :
    t.kind = .number ∨ t.kind = .dimension ∨ t.kind = .ident ∨ t.kind = .delim := by
  simpa only [isRangePart,Bool.and_eq_true,Bool.or_eq_true,beq_iff_eq,or_assoc] using ((Bool.and_eq_true _ _).mp h).1

lemma kind_of_mem_rangeParts {ts : List Token} (h : t ∈ rangeParts stop ts) :
    t.kind.isLeaf ∧ t.kind.isBarred = false := by
  induction ts generalizing stop with
  | nil => cases h
  | cons u rest ih =>
    rw [rangeParts] at h
    split at h
    · rename_i hp
      rcases mem_cons.mp h with rfl | h
      · rcases kind_of_isRangePart ((Bool.and_eq_true _ _).mp hp).2 with
          hk | hk | hk | hk <;> rw [hk] <;> exact ⟨rfl,rfl⟩
      · exact ih h
    · cases h

lemma kind_of_mem_leafRange? {u : Token} (h : u ∈ rest.take ((leafRange? t rest).getD []).length) :
    u.kind.isLeaf ∧ u.kind.isBarred = false := by
  unfold leafRange? at h
  split at h
  · cases hr : range? t rest with
    | none =>
      rw [hr] at h; cases h
    | some ps =>
      have hp := prefix_rangeParts t.span.stop rest
      rw [hr,Option.getD_some,eq_rangeParts_of_range? hr,← prefix_iff_eq_take.mp hp] at h
      exact kind_of_mem_rangeParts h
  · cases h

lemma parseFrom_opening (h : t.kind.opens) : parseFrom file dashed 0 stk xs stop (t :: rest) =
      parseFrom file dashed 0 (⟨t,separate stop t.span.start xs⟩ :: stk) [] t.span.stop rest := by
  rcases stk with _ | ⟨frame,stk⟩
  all_goals
    rw [parseFrom.eq_def]
    dsimp only
    cases hk : t.kind with
    | function | leftParen | leftBracket | leftBrace => rfl
    | _ =>
      rw [hk] at h; cases h

lemma parseFrom_closing {frame : Frame} (h : t.kind.closes) (hm : frame.opening.kind.closing? = some t.kind) :
    parseFrom file dashed 0 (frame :: stk) xs stop (t :: rest) =
      (frame.close file dashed (trim (separate stop t.span.start xs).reverse)).bind fun c =>
        parseFrom file dashed 0 stk (c :: frame.before) t.span.stop rest := by
  have hb : (frame.opening.kind.closing? == some t.kind) := beq_iff_eq.mpr hm
  rw [parseFrom.eq_def]
  dsimp only
  rw [hb]
  cases hk : t.kind with
  | rightParen | rightBracket | rightBrace =>
    cases frame.close file dashed (trim (separate stop t.span.start xs).reverse) <;> rfl
  | _ =>
    rw [hk] at h; cases h

lemma isOk_parseFrom_closing (h : t.kind.closes)
    (hm : (stk.map fun frame => frame.opening.kind.closing?).head? ≠ some (some t.kind)) :
    (parseFrom file dashed 0 stk xs stop (t :: rest)).isOk = false := by
  rcases stk with _ | ⟨frame,stk⟩
  · rw [parseFrom.eq_def]
    dsimp only
    cases hk : t.kind with
    | rightParen | rightBracket | rightBrace => rfl
    | _ =>
      rw [hk] at h; cases h
  · have hb : (frame.opening.kind.closing? == some t.kind) = false := beq_false_of_ne fun heq => hm (congrArg some heq)
    rw [parseFrom.eq_def]
    dsimp only
    rw [hb]
    cases hk : t.kind with
    | rightParen | rightBracket | rightBrace => rfl
    | _ =>
      rw [hk] at h; cases h

lemma isOk_parseFrom_barred (h : t.kind.isBarred) : (parseFrom file dashed 0 stk xs stop (t :: rest)).isOk = false := by
  rcases stk with _ | ⟨frame,stk⟩
  all_goals
    rw [parseFrom.eq_def]
    dsimp only
    cases hk : t.kind with
    | badString | badUrl | cdo | cdc | eof => rfl
    | _ =>
      rw [hk] at h; cases h

variable {value : Value}

lemma parseFrom_barred (h : t.kind.isBarred) : parseFrom file dashed 0 stk xs stop (t :: rest) ≠ .ok value := by
  intro hv
  have hok : (parseFrom file dashed 0 stk xs stop (t :: rest)).isOk = false := isOk_parseFrom_barred h
  rw [hv] at hok; cases hok

lemma close_of_parseFrom (h : t.kind.closes) (hv : parseFrom file dashed 0 stk xs stop (t :: rest) = .ok value) :
    ∃ frame stack' c, stk = frame :: stack' ∧
      frame.close file dashed (trim (separate stop t.span.start xs).reverse) = .ok c ∧
        parseFrom file dashed 0 stack' (c :: frame.before) t.span.stop rest = .ok value := by
  by_cases hm : (stk.map fun frame => frame.opening.kind.closing?).head? = some (some t.kind)
  · rcases stk with _ | ⟨frame,stk⟩
    · cases hm
    · rw [parseFrom_closing h (Option.some.inj hm)] at hv
      cases hc : frame.close file dashed (trim (separate stop t.span.start xs).reverse) with
      | error fault =>
        rw [hc] at hv; cases hv
      | ok c =>
        rw [hc] at hv
        exact ⟨frame,stk,c,rfl,hc,hv⟩
  · have hok : (parseFrom file dashed 0 stk xs stop (t :: rest)).isOk = false := isOk_parseFrom_closing h hm
    rw [hv] at hok; cases hok

lemma isOk_close (file : SourceFile) (dashed : Bool) (frame : Frame) (cts : Value) :
    (frame.close file dashed cts).isOk = (frame.opening.kind != .function || frame.opening.keyword != "var" ||
        (reference? dashed frame.opening.span cts).isOk) := by
  have hc (name : String) : (call file dashed name frame.opening.span cts).isOk =
      (name != "var" || (reference? dashed frame.opening.span cts).isOk) := by
    unfold call
    by_cases hu : name == "url"
    · rw [if_pos hu,eq_of_beq hu]
      split <;> rfl
    · rw [if_neg hu]
      by_cases hv : name == "var"
      · rw [if_pos hv,bne,hv]
        rcases reference? dashed frame.opening.span cts with fault | _ | c <;> rfl
      · rw [if_neg hv,bne,eq_false_of_ne_true hv]
        split <;> rfl
  unfold Frame.close
  cases hk : frame.opening.kind with
  | function => exact hc _
  | _ => rfl

inductive IsMade (cts : Value) : Component → Prop
  | url (address : String) (location : Location) : IsMade cts (.url address location)
  | color (c : Color) : IsMade cts (.color c)
  | function (name : String) : IsMade cts (.function name cts)
  | block (bracket : Bracket) : IsMade cts (.block bracket cts)
  | reference (name : String) (source : Option NameSource) :
      IsMade cts (.reference name source (splitFallback cts).2)

variable {cts : Value} {c : Component}

lemma isMade_of_reference? {opening : Span} (h : reference? dashed opening cts = .ok (some c)) : IsMade cts c := by
  have hm (name : String) (src : Option NameSource) :
      IsMade cts (.reference name src (splitFallback cts).2) := .reference name src
  rw [reference?] at h
  generalize splitFallback cts = ps at h hm
  obtain ⟨head,fb⟩ := ps
  dsimp only at h
  repeat' split at h
  all_goals cases h
  all_goals exact hm _ _

lemma isMade_of_close {frame : Frame} (h : frame.close file dashed cts = .ok c) : IsMade cts c := by
  have hc {name : String} {opening : Span} (h : call file dashed name opening cts = .ok c) : IsMade cts c := by
    unfold call at h
    split at h
    · split at h
      · cases h
        exact .url _ _
      · cases h
        exact .function name
    · split at h
      · split at h
        · cases h
        · rename_i hs
          cases h
          exact isMade_of_reference? hs
        · cases h
          exact .function name
      · split at h
        · cases h
          exact .color _
        · cases h
          exact .function name
  unfold Frame.close at h
  split at h
  · exact hc h
  all_goals cases h
  all_goals exact .block _

end Value
end Css
