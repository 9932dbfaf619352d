import Css.Proofs.Token.Legible
import Css.Proofs.Value.Sources
import Mathlib.Data.List.Chain

/-!
# Which values are read, and how they are spaced

A value is read if its brackets are nested by kind and none of its tokens is malformed.
-/
namespace Css
open List Token Component

def Component.contents? : Component → Option Value
  | function _ xs => some xs
  | block _ xs => some xs
  | reference _ _ fallback => fallback
  | _ => none

namespace Value

inductive Within (xs : Value) : Value → Prop
  | self : Within xs xs
  | inner {value ys : Value} {c : Component} (hc : c ∈ value) (hcontents : c.contents? = some ys)
      (h : Within xs ys) : Within xs value

def IsSpaced (xs : Value) : Prop := xs.IsChain fun a b => ¬(a = .whitespace ∧ b = .whitespace)

structure IsTidy (xs : Value) : Prop where
  first : xs.head? ≠ some .whitespace
  last : xs.getLast? ≠ some .whitespace
  spaced : xs.IsSpaced

lemma isSpaced_nil : IsSpaced [] := isChain_nil

variable {xs : Value}

lemma isSpaced_cons {c : Component} (hc : c.isWhitespace = false) (h : xs.IsSpaced) : IsSpaced (c :: xs) := by
  refine isChain_cons.mpr ⟨fun d _ hb => ?_,h⟩
  rw [hb.1] at hc; cases hc

lemma IsSpaced.reverse (h : xs.IsSpaced) : IsSpaced xs.reverse :=
  isChain_reverse.mpr (h.imp fun _ _ hne hb => hne hb.symm)

lemma head?_dropWhile_isWhitespace (xs : List Component) : (xs.dropWhile isWhitespace).head? ≠ some .whitespace := by
  intro hh
  have hn := head?_dropWhile_not isWhitespace xs
  rw [hh] at hn; cases hn

lemma isTidy_trim (h : xs.IsSpaced) : IsTidy (trim xs) := by
  have hf := head?_dropWhile_isWhitespace xs
  have hs : IsSpaced (xs.dropWhile isWhitespace).reverse := IsSpaced.reverse (h.suffix (dropWhile_suffix _))
  rw [← getLast?_reverse] at hf
  rw [trim]
  generalize (xs.dropWhile isWhitespace).reverse = ys at hf hs ⊢
  have hsf := dropWhile_suffix (l := ys) isWhitespace
  refine ⟨?_,?_,IsSpaced.reverse (hs.suffix hsf)⟩
  · rw [head?_reverse]
    intro hl
    obtain ⟨pre,hb⟩ := hsf
    rw [← hb,getLast?_append,hl] at hf
    exact hf rfl
  · rw [getLast?_reverse]
    exact head?_dropWhile_isWhitespace ys

end Value

namespace Component

def IsNeat (c : Component) : Prop := ∀ xs ys, c.contents? = some ys → Value.Within xs ys → xs.IsTidy

lemma isNeat_of_contents? {c : Component} (h : c.contents? = none) : c.IsNeat := by
  intro xs ys hys
  rw [h] at hys; cases hys

end Component

namespace Value
variable {value : Value}

lemma isTidy_of_within (h : value.IsTidy) (hn : ∀ c ∈ value, c.IsNeat) {xs : Value}
    (hxs : Within xs value) : xs.IsTidy := by
  cases hxs with
  | self => exact h
  | inner hc hcn hys => exact hn _ hc xs _ hcn hys

variable {c : Component}

lemma checks_of_leaf? {file : SourceFile} {t : Token} {range : Option (List Token)}
    (h : leaf? file t range = some c) : c.isWhitespace = false ∧ c.contents? = none := by
  have hh : (hashComponent t.name).contents? = none := by
    unfold hashComponent
    split <;> rfl
  rw [leaf?.eq_def] at h
  cases hk : t.kind with
  | ident =>
    rw [hk] at h
    cases range <;> cases h <;> exact ⟨rfl,rfl⟩
  | hash | idHash =>
    rw [hk] at h; cases h
    exact ⟨isWhitespace_hashComponent _,hh⟩
  | delim =>
    rw [hk] at h
    obtain ⟨d,-,rfl⟩ := Option.map_eq_some_iff.mp h
    exact ⟨rfl,rfl⟩
  | _ =>
    rw [hk] at h
    cases h <;> exact ⟨rfl,rfl⟩

structure IsOrderly (items : List Component) : Prop where
  spaced : IsSpaced items
  neat : ∀ c ∈ items, c.IsNeat

namespace IsOrderly
variable {items : List Component}

lemma nil : IsOrderly [] := ⟨isSpaced_nil,forall_mem_nil _⟩

lemma cons (hc : c.isWhitespace = false) (hn : c.IsNeat) (h : IsOrderly items) : IsOrderly (c :: items) :=
  ⟨isSpaced_cons hc h.spaced,forall_mem_cons.mpr ⟨hn,h.neat⟩⟩

lemma leaf (hc : c.isWhitespace = false) (hcn : c.contents? = none) (h : IsOrderly items) : IsOrderly (c :: items) :=
  h.cons hc (isNeat_of_contents? hcn)

lemma pushBlank (h : IsOrderly items) : IsOrderly (pushBlank items) := by
  unfold Value.pushBlank
  split
  · exact h
  · rename_i hf
    have hn : Component.IsNeat .whitespace := isNeat_of_contents? rfl
    refine ⟨isChain_cons.mpr ⟨fun c hc hb => ?_,h.spaced⟩,forall_mem_cons.mpr ⟨hn,h.neat⟩⟩
    obtain ⟨rest,rfl⟩ := head?_eq_some_iff.mp hc
    exact hf rest (congrArg (· :: rest) hb.2)

lemma separate (h : IsOrderly items) (stop start : Nat) : IsOrderly (separate stop start items) := by
  unfold Value.separate
  split
  · exact h.pushBlank
  · exact h

lemma pushNumeric (h : IsOrderly items) (stop : Nat) (t : Token) (hc : c.isWhitespace = false)
    (hcn : c.contents? = none) :
    IsOrderly (pushNumeric stop t c items) := by
  unfold Value.pushNumeric
  split
  · exact (h.leaf rfl rfl).leaf hc hcn
  · exact h.leaf hc hcn

lemma addLeaf (h : IsOrderly items) (file : SourceFile) (stop : Nat) (t : Token)
    (range : Option (List Token)) : IsOrderly (addLeaf file stop t range items) := by
  unfold Value.addLeaf
  split
  · exact (h.separate _ _).pushBlank
  · cases hl : leaf? file t range with
    | none => exact h.separate _ _
    | some c =>
      obtain ⟨hc,hcn⟩ := checks_of_leaf? hl
      dsimp only
      split
      · exact (h.separate _ _).pushNumeric _ _ hc hcn
      · exact (h.separate _ _).leaf hc hcn

lemma trim_reverse (h : IsOrderly items) : (trim items.reverse).IsTidy ∧ ∀ c ∈ trim items.reverse, c.IsNeat :=
  ⟨isTidy_trim h.spaced.reverse,fun c hc => h.neat c (mem_reverse.mp ((trim_sublist _).mem hc))⟩

end IsOrderly

lemma splitFallback_suffix {args fb : Value} (h : (splitFallback args).2 = some fb) :
    ∃ rest, rest <:+ args ∧ fb = trim rest := by
  induction args with
  | nil => cases h
  | cons c args ih =>
    rw [splitFallback] at h
    split at h
    · cases h
      exact ⟨args,suffix_cons c args,rfl⟩
    · obtain ⟨rest,hr,hf⟩ := ih h
      exact ⟨rest,hr.trans (suffix_cons c args),hf⟩

variable {file : SourceFile} {dashed : Bool}

/-- A component that is made of a list holds this list, or what stands behind a comma of it, or none. -/
lemma IsMade.contents? {cts : Value} (h : IsMade cts c) : c.contents? = none ∨ c.contents? = some cts ∨
      c.contents? = (splitFallback cts).2 := by
  cases h with
  | url | color => exact .inl rfl
  | function | block => exact .inr (.inl rfl)
  | reference => exact .inr (.inr rfl)

lemma isNeat_of_close {frame : Frame} {cts : Value} (ht : cts.IsTidy)
    (hn : ∀ d ∈ cts, d.IsNeat) (h : frame.close file dashed cts = .ok c) : c.IsNeat := by
  intro xs ys hys hxs
  rcases (isMade_of_close h).contents? with hnn | hs | hf
  · rw [hnn] at hys; cases hys
  · rw [hs] at hys; cases hys
    exact isTidy_of_within ht hn hxs
  · rw [hf] at hys
    obtain ⟨rest,hr,rfl⟩ := splitFallback_suffix hys
    refine isTidy_of_within (isTidy_trim (ht.spaced.suffix hr)) (fun d hd => ?_) hxs
    exact hn d (hr.mem ((trim_sublist rest).mem hd))

lemma exists_reference? (opening : Span) (args : Value) : ∃ found, reference? false opening args = .ok found := by
  rw [reference?]
  generalize splitFallback args = ps
  obtain ⟨head,fb⟩ := ps
  dsimp only
  cases head.filter fun c => !c.isWhitespace with
  | nil => exact ⟨_,rfl⟩
  | cons c rest =>
    cases c with
    | ident name =>
      dsimp only
      split
      · cases rest <;> exact ⟨_,rfl⟩
      · exact ⟨_,rfl⟩
    | _ => exact ⟨_,rfl⟩

lemma exists_close (file : SourceFile) (frame : Frame) (cts : Value) : ∃ c, frame.close file false cts = .ok c := by
  obtain ⟨found,hf⟩ := exists_reference? frame.opening.span cts
  have hok := isOk_close file false frame cts
  rw [hf] at hok
  cases hc : frame.close file false cts with
  | error fault =>
    rw [hc] at hok
    simp [Except.isOk,Except.toBool] at hok
  | ok c => exact ⟨c,rfl⟩

variable {t : Token} {rest : List Token} {stack : List Frame} {items : List Component} {stop : Nat} {ts : List Token}

lemma closesAll_append_of_leaf (due : List Kind) (rest : List Token)
    (h : ∀ t ∈ ts, t.kind.isLeaf ∧ t.kind.isBarred = false) :
    ((ts ++ rest).all (fun t => !t.kind.isBarred) && closesAll due ((ts ++ rest).map kind)) =
      (rest.all (fun t => !t.kind.isBarred) && closesAll due (rest.map kind)) := by
  induction ts with
  | nil => rfl
  | cons t ts ih =>
    obtain ⟨⟨hl,hb⟩,hm⟩ := forall_mem_cons.mp h
    rw [← ih hm,cons_append,all_cons,map_cons,hb,closesAll_leaf due _ hl]; rfl

def Closes (due : List Kind) (ts : List Token) : Bool := ts.all (fun t => !t.kind.isBarred) && closesAll due (ts.map kind)

/-- A value is read from nested tokens only, and from all of them if no reference names its source. -/
lemma closes_of_isOk_parseFrom (file : SourceFile) {skip : Nat} {due : List Kind}
    (hd : stack.map (fun frame => frame.opening.kind.closing?) = due.map some) :
    ((parseFrom file dashed skip stack items stop ts).isOk → Closes due (ts.drop skip)) ∧
      (dashed = false → Closes due (ts.drop skip) → (parseFrom file dashed skip stack items stop ts).isOk) := by
  unfold Closes
  have hn {p : Prop} (h : false = true) : p := absurd h Bool.false_ne_true
  induction ts generalizing skip stack items stop due with
  | nil =>
    rw [drop_nil]
    cases stack with
    | nil =>
      rw [map_eq_nil_iff.mp hd.symm]
      exact ⟨fun _ => rfl,fun _ _ => rfl⟩
    | cons frame stack =>
      obtain ⟨closing,due,rfl,-,-⟩ := map_eq_cons_iff.mp hd.symm
      exact ⟨hn,fun _ => hn⟩
  | cons t rest ih =>
    cases skip with
    | succ skip =>
      rw [parseFrom,drop_succ_cons]
      exact ih hd
    | zero =>
      rw [drop_zero,all_cons,map_cons]
      rcases kind_cases t.kind with hb | ⟨hb,hl | ho | hcs⟩
      · rw [isOk_parseFrom_barred hb,hb]
        exact ⟨hn,fun _ => hn⟩
      · have hs : ∀ u ∈ rest.take ((leafRange? t rest).getD []).length,
            u.kind.isLeaf ∧ u.kind.isBarred = false := fun u hu => kind_of_mem_leafRange? hu
        have hr := closesAll_append_of_leaf due (rest.drop ((leafRange? t rest).getD []).length) hs
        rw [take_append_drop] at hr
        rw [parseFrom_leaf hl hb,hb,closesAll_leaf due _ hl,Bool.not_false,Bool.true_and,hr]
        exact ih hd
      · obtain ⟨closing,hcl⟩ := Option.isSome_iff_exists.mp ho
        rw [parseFrom_opening ho,closesAll_opening due _ hcl,hb]
        refine ih ?_
        rw [map_cons,hd,hcl]; rfl
      · rw [closesAll_closing due _ hcs,hb]
        by_cases hm : due.head? = some t.kind
        · obtain ⟨due,rfl⟩ := head?_eq_some_iff.mp hm
          obtain ⟨frame,stack,rfl,hf,hst⟩ := map_eq_cons_iff.mp hd
          rw [parseFrom_closing hcs hf,head?_cons,beq_self_eq_true]
          cases hc : frame.close file dashed (trim (separate stop t.span.start items).reverse) with
          | ok c => exact ih hst
          | error fault =>
            refine ⟨hn,fun hds => ?_⟩
            subst hds
            obtain ⟨c,hok⟩ := exists_close file frame (trim (separate stop t.span.start items).reverse)
            cases hok.symm.trans hc
        · rw [isOk_parseFrom_closing hcs,beq_false_of_ne hm,Bool.false_and,Bool.and_false]
          · exact ⟨hn,fun _ => hn⟩
          rw [hd,head?_map]
          intro hfr
          obtain ⟨closing,hcl,heq⟩ := Option.map_eq_some_iff.mp hfr
          exact hm (hcl.trans heq)

lemma closes_of_isOk_parse (file : SourceFile) (ts : List Token) : ((parse file dashed ts).isOk → Closes [] ts) ∧
      (dashed = false → Closes [] ts → (parse file dashed ts).isOk) :=
  closes_of_isOk_parseFrom file rfl

lemma nested_of_parse (h : parse file dashed ts = .ok value) : Nested (ts.map kind) := by
  have hc : Closes [] ts := (closes_of_isOk_parse file ts).1 (congrArg Except.isOk h)
  rw [Closes,Bool.and_eq_true] at hc
  exact nested_iff_closesAll.mpr hc.2

lemma isTidy_of_parseFrom {skip : Nat} (hi : IsOrderly items) (hs : ∀ frame ∈ stack, IsOrderly frame.before)
    (h : parseFrom file dashed skip stack items stop ts = .ok value) :
    value.IsTidy ∧ ∀ c ∈ value, c.IsNeat := by
  induction ts generalizing skip stack items stop with
  | nil =>
    cases stack with
    | nil =>
      rw [parseFrom] at h; cases h
      exact hi.trim_reverse
    | cons frame stack =>
      rw [parseFrom] at h; cases h
  | cons t rest ih =>
    cases skip with
    | succ skip =>
      rw [parseFrom] at h
      exact ih hi hs h
    | zero =>
      rcases kind_cases t.kind with hb | ⟨hb,hl | ho | hcl⟩
      · exact absurd h (parseFrom_barred hb)
      · rw [parseFrom_leaf hl hb] at h
        exact ih (hi.addLeaf _ _ _ _) hs h
      · rw [parseFrom_opening ho] at h
        exact ih .nil (forall_mem_cons.mpr ⟨hi.separate _ _,hs⟩) h
      · obtain ⟨frame,stack,c,rfl,hc,h⟩ := close_of_parseFrom hcl h
        obtain ⟨hf,hs⟩ := forall_mem_cons.mp hs
        obtain ⟨ht,hn⟩ := (hi.separate stop t.span.start).trim_reverse
        exact ih (hf.cons (checks_of_close hc).2 (isNeat_of_close ht hn hc)) hs h

lemma isTidy_of_parse (h : parse file dashed ts = .ok value) {xs : Value} (hxs : Within xs value) : xs.IsTidy :=
  have hv := isTidy_of_parseFrom .nil (forall_mem_nil _) h
  isTidy_of_within hv.1 hv.2 hxs

lemma parse_ok_iff (file : SourceFile) (ts : List Token) : (∃ value, parse file false ts = .ok value) ↔
      (∀ t ∈ ts, t.kind.isBarred = false) ∧ Nested (ts.map kind) := by
  obtain ⟨hc,hok⟩ := closes_of_isOk_parse file ts
  have ha : (∀ t ∈ ts, t.kind.isBarred = false) ↔ ts.all (fun t => !t.kind.isBarred) := by
    simp only [all_eq_true,Bool.not_eq_true']
  rw [nested_iff_closesAll,ha,← Bool.and_eq_true]
  refine Iff.trans ?_ ⟨hc,hok rfl⟩
  cases parse file false ts with
  | error fault =>
    refine iff_of_false ?_ Bool.false_ne_true
    rintro ⟨value,hv⟩
    cases hv
  | ok value => exact iff_of_true ⟨value,rfl⟩ rfl

lemma isBarred_of_mem_scan {src : String} (ht : t ∈ scan src) :
    t.kind.isBarred = false ↔ t.kind ∉ [Kind.badString,.badUrl,.cdo,.cdc] := by
  obtain ⟨r,hne,-,hk,-⟩ := exists_next_of_mem_scanFrom (Nat.le_refl _) ht
  have he := (Lexer.known_next hne).ne_eof
  rw [← hk] at he
  generalize t.kind = kind at he
  cases kind <;> first | exact absurd rfl he | decide

/-- Tokens of a source, without its comments, are read as a value exactly if none of them is a malformed
string or url or a comment bracket of another language and their brackets are nested by kind; and in all
lists of the value white space stands between two other components only. -/
theorem parse_ok_iff_nested (file : SourceFile) {source : String} {tokens : List Token}
    (htokens : ∀ t ∈ tokens, t ∈ scanRules source) :
    ((∃ value, parse file false tokens = .ok value) ↔
        (∀ t ∈ tokens, t.kind ∉ [Kind.badString, .badUrl, .cdo, .cdc]) ∧ Nested (tokens.map kind)) ∧
      ∀ value, parse file false tokens = .ok value → ∀ xs, Within xs value → IsTidy xs := by
  have hscan : ∀ t ∈ tokens, t ∈ scan source := fun t ht => mem_of_mem_filter (htokens t ht)
  refine ⟨?_, fun value hvalue xs hxs => isTidy_of_parse hvalue hxs⟩
  rw [parse_ok_iff, forall₂_congr fun t ht => isBarred_of_mem_scan (hscan t ht)]

/-- Comments leave blanks in a value that is read, and a bracket of another kind closes nothing. -/
theorem parse_ok_iff_nested_comments : (∃ value, parse (.ofText "" "") false
          (scanRules "var( --x/**/ , [a /**/ b]/**/ c )/**/ u+1-f/**//**/ \x7b;\x7d ") = .ok value ∧
        ∀ xs, Within xs value → IsTidy xs) ∧
      ¬∃ value, parse (.ofText "" "") false (scanRules "f([a)]") = .ok value := by
  have hself (source : String) : ∀ t ∈ scanRules source, t ∈ scanRules source := fun _ ht => ht
  obtain ⟨hread, htidy⟩ := parse_ok_iff_nested (.ofText "" "")
    (hself "var( --x/**/ , [a /**/ b]/**/ c )/**/ u+1-f/**//**/ \x7b;\x7d ")
  obtain ⟨value, hvalue⟩ := hread.mpr ⟨by decide +kernel, by decide +kernel⟩
  refine ⟨⟨value, hvalue, htidy value hvalue⟩, fun hcrossed => ?_⟩
  have hnested := ((parse_ok_iff_nested _ (hself "f([a)]")).1.mp hcrossed).2
  exact absurd hnested (by decide +kernel)

end Value
end Css
