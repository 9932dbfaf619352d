import Css.Proofs.Cursor.Prelude
import Css.Proofs.Cursor.Selector

/-!
# What is blamed for a fault

The parsers of selectors, values, media queries and declarations blame the tokens that they are given,
one after the other.
-/
namespace Css
open List Token Value Cursor

/-- A span that starts with one of the tokens, or the one of nothing. -/
def Span.Marks (span : Span) (tokens : List Token) : Prop := span = .none ∨ ∃ t ∈ tokens, span.start = t.span.start

def Fault.Blames (fault : Fault) (tokens : List Token) : Prop := fault.span.Marks tokens

lemma Span.Marks.mono {span : Span} {ts us : List Token} (h : span.Marks ts) (hs : ts ⊆ us) : span.Marks us :=
  h.imp_right fun ⟨t,ht,hst⟩ => ⟨t,hs ht,hst⟩

def Fault.isEnd (fault : Fault) : Bool := fault.cause == .parse .unexpectedEnd

namespace Token
variable {size : Nat} {all : List Token}

/-- Faults that are noted from some tokens of a source up to others. -/
inductive Along (size : Nat) (all : List Token) : List Token → List Fault → List Token → Prop
  | skip {ts rest : List Token} (h : rest <:+ ts) : Along size all ts [] rest
  | blank {ts rest : List Token} {fault : Fault} {more : List Fault} (h : fault.span = .none)
      (hm : Along size all ts more rest) : Along size all ts (fault :: more) rest
  | note {t : Token} {ts behind rest : List Token} {fault : Fault} {more : List Fault}
      (ht : t :: behind <:+ ts) (hs : fault.span.start = t.span.start)
      (hm : Along size all (t :: behind) more rest) : Along size all ts (fault :: more) rest
  | back {ts us rest : List Token} {fault : Fault} {more : List Fault}
      (hf : fault = .parse .unexpectedEnd (.emptyAt size)) (hu : us <:+ all)
      (hm : Along size all us more rest) : Along size all ts (fault :: more) rest

variable {ts us rest : List Token} {fault : Fault} {more later : List Fault}

lemma Along.mono (h : Along size all us more rest) (hs : us <:+ ts) : Along size all ts more rest := by
  induction h with
  | skip h => exact .skip (h.trans hs)
  | blank h _ ih => exact .blank h (ih hs)
  | note ht hst hm _ => exact .note (ht.trans hs) hst hm
  | back hf hu hm _ => exact .back hf hu hm

lemma Along.trans (h : Along size all ts more us) (h' : Along size all us later rest) :
    Along size all ts (more ++ later) rest := by
  induction h with
  | skip h => exact h'.mono h
  | blank h _ ih => exact .blank h (ih h')
  | note ht hst _ ih => exact .note ht hst (ih h')
  | back hf hu _ ih => exact .back hf hu (ih h')

lemma Along.suffix (h : Along size all ts more rest) (hts : ts <:+ all) : rest <:+ all := by
  induction h with
  | skip h => exact h.trans hts
  | blank _ _ ih => exact ih hts
  | note ht _ _ ih => exact ih (ht.trans hts)
  | back _ hu _ ih => exact ih hu

/-- A fault in the first part of the tokens is noted before the second one. -/
lemma along_of_blames {part : List Token} (h : fault.Blames part) (ht : part ++ us <:+ ts)
    (hr : rest <:+ us) : Along size all ts [fault] rest := by
  rcases h with h | ⟨t,hm,hst⟩
  · exact .blank h (.skip ((hr.trans (suffix_append part us)).trans ht))
  · obtain ⟨pre,behind,rfl⟩ := append_of_mem hm
    rw [append_assoc,cons_append] at ht
    refine .note ((suffix_append pre _).trans ht) hst (.skip (hr.trans ?_))
    exact ⟨t :: behind,rfl⟩

/-- Faults that start at `start` or behind it and each not before the last one, until the source ends too
early. Faults that blame nothing may stand anywhere. -/
def Follow (start : Nat) : List Fault → Prop
  | [] => True
  | fault :: more => (fault.span = .none ∨ start ≤ fault.span.start) ∧
    Follow (if fault.isEnd then 0 else max start fault.span.start) more

lemma Along.follow (h : Along size all ts more rest) (hall : all.Pairwise fun t u => t.span.start < u.span.start)
    (hsize : ∀ t ∈ all, t.span.start ≤ size) (hts : ts <:+ all) {start : Nat}
    (hs : start = 0 ∨ ∃ t ∈ all, start = t.span.start) (hle : ∀ t ∈ ts, start ≤ t.span.start) : Follow start more := by
  induction h generalizing start with
  | skip => exact trivial
  | blank h _ ih =>
    refine ⟨.inl h,?_⟩
    split
    · exact ih hts (.inl rfl) fun _ _ => Nat.zero_le _
    · rw [h,Span.none,Nat.max_zero]
      exact ih hts hs hle
  | @note t _ behind _ _ _ ht hst _ ih =>
    have hm := hle t (ht.subset mem_cons_self)
    have hts := ht.trans hts
    refine ⟨.inr (hst ▸ hm),?_⟩
    split
    · exact ih hts (.inl rfl) fun _ _ => Nat.zero_le _
    · rw [hst,Nat.max_eq_right hm]
      refine ih hts (.inr ⟨t,hts.subset mem_cons_self,rfl⟩) fun u hu => ?_
      rcases mem_cons.mp hu with rfl | hu
      · exact Nat.le_refl _
      · exact Nat.le_of_lt (rel_of_pairwise_cons (hall.sublist hts.sublist) hu)
  | back hf hu _ ih =>
    subst hf
    refine ⟨.inr ?_,?_⟩
    · rcases hs with rfl | ⟨t,ht,rfl⟩
      · exact Nat.zero_le _
      · exact hsize t ht
    · exact ih hu (.inl rfl) fun _ _ => Nat.zero_le _

/-- A fault that starts before an earlier one blames nothing, or the source has ended too early in
between. -/
lemma Follow.of_lt {start : Nat} {pre between post : List Fault} {first second : Fault}
    (h : Follow start (pre ++ first :: (between ++ second :: post)))
    (hlt : second.span.start < first.span.start) :
    second.span = .none ∨ ∃ fault ∈ first :: between, fault.isEnd := by
  induction pre generalizing start with
  | cons fault pre ih => exact ih h.2
  | nil =>
    obtain ⟨-,h⟩ := h
    split at h
    · rename_i hf
      exact .inr ⟨first,mem_cons_self,hf⟩
    · have hle : first.span.start ≤ max start first.span.start := Nat.le_max_right ..
      generalize max start first.span.start = start at h hle
      induction between generalizing start with
      | nil => exact h.1.imp_right fun hs => absurd hlt (by omega)
      | cons fault between ih =>
        obtain ⟨-,h⟩ := h
        split at h
        · rename_i hf
          exact .inr ⟨fault,mem_cons_of_mem _ mem_cons_self,hf⟩
        · refine (ih _ h (Nat.le_trans hle (Nat.le_max_left ..))).imp_right ?_
          rintro ⟨u,hu,he⟩
          exact ⟨u,(Sublist.cons_cons first (sublist_cons_self fault between)).subset hu,he⟩

end Token

/-- A fault blames one of the tokens, and a result is as asked. -/
def Within {α : Type} (ts : List Token) (Q : α → Prop) : Except Fault α → Prop
  | .ok a => Q a
  | .error fault => fault.Blames ts

abbrev Blamed {α : Type} (ts : List Token) (x : Except Fault α) : Prop := Within ts (fun _ => True) x

variable {α β : Type} {all ts rest : List Token} {t : Token} {last : Span} {P : α → Prop} {Q : β → Prop}

lemma Within.ok {x : Except Fault β} {b : β} (h : Within all Q x) (hx : x = .ok b) : Q b := by
  rw [hx] at h
  exact h

lemma Within.error {x : Except Fault β} {fault : Fault} (h : Within all Q x)
    (hx : x = .error fault) : fault.Blames all := by
  rw [hx] at h
  exact h

lemma within_bind {x : Except Fault α} {f : α → Except Fault β} (hx : Within all P x)
    (hf : ∀ a, P a → Within all Q (f a)) : Within all Q (x >>= f) := by
  cases x with
  | error fault => exact hx
  | ok a => exact hf a hx

lemma blamed_mapM {f : α → Except Fault β} {xs : List α} (h : ∀ a ∈ xs, Blamed all (f a)) : Blamed all (xs.mapM f) := by
  induction xs with
  | nil => exact trivial
  | cons a xs ih =>
    rw [mapM_cons]
    refine within_bind (h a mem_cons_self) fun b _ => ?_
    exact within_bind (ih fun c hc => h c (mem_cons_of_mem a hc)) fun bs _ => trivial

lemma Token.marks (h : t ∈ all) : t.span.Marks all := .inr ⟨t,h,rfl⟩

lemma marks_getD {found : Option Token} (hf : ∀ t ∈ found, t ∈ all) (hl : last.Marks all) :
    ((found.map Token.span).getD last).Marks all := by
  cases found with
  | none => exact hl
  | some t => exact Token.marks (hf t rfl)

lemma marks_head? (ht : ts ⊆ all) (hl : last.Marks all) : ((ts.head?.map Token.span).getD last).Marks all :=
  marks_getD (fun _ h => ht (mem_of_head? h)) hl

lemma marks_getLast? (ht : ts ⊆ all) : ((ts.getLast?.map Token.span).getD .none).Marks all :=
  marks_getD (fun _ h => ht (mem_of_getLast? h)) (.inl rfl)

lemma marks_spanOf (ht : ts ⊆ all) : (spanOf ts).Marks all := by
  unfold spanOf
  split
  · rename_i first last hf hl
    have hf := ht (mem_of_head? hf)
    have hl := ht (mem_of_getLast? hl)
    rcases Nat.le_total first.span.start last.span.start with h | h
    · exact .inr ⟨first,hf,Nat.min_eq_left h⟩
    · exact .inr ⟨last,hl,Nat.min_eq_right h⟩
  · exact .inl rfl

lemma dropBlank_subset (ht : ts ⊆ all) : dropBlank ts ⊆ all := Subset.trans (dropWhile_suffix _).subset ht

lemma trimBlank_subset (ht : ts ⊆ all) : trimBlank ts ⊆ all := Subset.trans (trimBlank_sublist ts).subset ht

lemma cons_subset_of_dropBlank (ht : ts ⊆ all) (h : dropBlank ts = t :: rest) : t :: rest ⊆ all := h ▸ dropBlank_subset ht

namespace Selector

lemma blames_faultAt (hl : last.Marks all) (ht : ts ⊆ all) (problem : SelectorProblem) :
    (faultAt last ts problem).Blames all :=
  marks_head? ht hl

variable (hl : last.Marks all)
include hl

lemma within_attributeOperator (ht : ts ⊆ all) : Within all (·.2 ⊆ all) (attributeOperator last ts) := by
  unfold attributeOperator
  repeat' split
  all_goals first
    | exact blames_faultAt hl ht _
    | exact subset_of_cons_subset ht
    | exact subset_of_cons_subset (subset_of_cons_subset ht)

lemma within_attributeValue (ht : ts ⊆ all) : Within all (·.2 ⊆ all) (attributeValue last ts) := by
  unfold attributeValue
  repeat' split
  · exact blames_faultAt hl ht _
  · exact subset_of_cons_subset ht
  · exact subset_of_cons_subset ht
  · exact blames_faultAt hl (subset_of_cons_subset ht) _

lemma within_attributeFlag (ht : ts ⊆ all) : Within all (·.2 ⊆ all) (attributeFlag last ts) := by
  unfold attributeFlag
  repeat' split
  · exact ht
  · exact dropBlank_subset (subset_of_cons_subset ht)
  · exact dropBlank_subset (subset_of_cons_subset ht)
  · exact blames_faultAt hl ht _
  · exact ht

lemma within_attributeTest (ht : ts ⊆ all) : Within all (·.2 ⊆ all) (attributeTest last ts) := by
  unfold attributeTest
  split
  · exact blames_faultAt hl (nil_subset _) _
  · rename_i t rest hd
    have hr := subset_of_cons_subset (cons_subset_of_dropBlank ht hd)
    have hb := dropBlank_subset hr
    split
    · dsimp only
      split
      · exact Subset.trans (tail_sublist _).subset hb
      · refine within_bind (within_attributeOperator hl hb) fun _ h₁ => ?_
        refine within_bind (within_attributeValue hl (dropBlank_subset h₁)) fun _ h₂ => ?_
        refine within_bind (within_attributeFlag hl (dropBlank_subset h₂)) fun found h₃ => ?_
        obtain ⟨_,rest⟩ := found
        cases rest with
        | nil => exact blames_faultAt hl (nil_subset _) _
        | cons u rest =>
          have h := subset_of_cons_subset h₃
          dsimp only
          split
          · exact h
          · exact blames_faultAt hl h _
    · exact blames_faultAt hl hr _

omit hl in
lemma blamed_parseList {nested : Nested} (ctx : Context)
    (hn : ∀ ctx part, part ⊆ all → Blamed all (nested ctx part)) (ht : ts ⊆ all) :
    Blamed all (parseList nested ctx ts) := by
  have hf : Fault.Blames (.parse .expectedSelector ((ts.head?.map Token.span).getD .none)) all :=
    marks_head? ht (.inl rfl)
  unfold parseList
  dsimp only
  split
  · exact hf
  · refine blamed_mapM fun part hp => ?_
    obtain ⟨p,hm,rfl⟩ := mem_map.mp hp
    split
    · exact hf
    · refine hn ctx _ (trimBlank_subset fun _ hu => ht ?_)
      exact (sublist_of_mem_commaParts hm).subset hu

section
variable {nested : Nested} (hn : ∀ ctx part, part ⊆ all → Blamed all (nested ctx part)) (ctx : Context)
include hn

omit hl in
lemma blamed_pseudoFunction (name : String) (ht : ts ⊆ all) : Blamed all (pseudoFunction nested ctx name ts) := by
  have hb := trimBlank_subset ht
  unfold pseudoFunction
  split
  · exact within_bind (hn _ _ hb) fun _ _ => trivial
  split
  · exact hn _ _ hb
  split
  · exact within_bind (blamed_parseList _ hn ht) fun _ _ => trivial
  · exact trivial

lemma within_pseudoNamed (isElement : Bool) (ht : ts ⊆ all) :
    Within all (·.2 ⊆ all) (pseudoNamed nested ctx last isElement ts) := by
  unfold pseudoNamed
  split
  · exact blames_faultAt hl ht _
  · rename_i t rest
    have hr := subset_of_cons_subset ht
    split
    · exact hr
    · split
      · exact blames_faultAt hl (nil_subset _) _
      · rename_i args post hs
        obtain ⟨u,-,rfl⟩ := eq_of_splitParens hs
        obtain ⟨hargs,hafter⟩ := append_subset.mp hr
        have ha := subset_of_cons_subset hafter
        split
        · exact ha
        · have hf := blamed_pseudoFunction hn ctx t.keyword hargs
          split
          · exact hf.error ‹_›
          · exact ha
    · exact blames_faultAt hl hr _

lemma within_pseudo (ht : ts ⊆ all) : Within all (·.2 ⊆ all) (pseudo nested ctx last ts) := by
  unfold pseudo
  split
  · exact within_pseudoNamed hl hn ctx _ ht
  · split
    · exact within_pseudoNamed hl hn ctx _ (subset_of_cons_subset ht)
    · exact within_pseudoNamed hl hn ctx _ ht

lemma within_simple? (isFirst : Bool) (ht : ts ⊆ all) :
    Within all (∀ found ∈ ·, found.2 ⊆ all) (simple? nested ctx last isFirst ts) := by
  unfold simple?
  split
  · rintro _ ⟨⟩
  · rename_i t rest
    have hr := subset_of_cons_subset ht
    have ha := within_attributeTest hl hr
    have hp := within_pseudo hl hn ctx hr
    have hc : Within all (·.2 ⊆ all) (classAfterPoint last rest) := by
      unfold classAfterPoint
      repeat' split
      · exact blames_faultAt hl hr _
      · exact subset_of_cons_subset hr
      · exact blames_faultAt hl (subset_of_cons_subset hr) _
    repeat' split
    all_goals first
      | exact blames_faultAt hl ht _
      | exact ha.error ‹_›
      | exact hp.error ‹_›
      | exact hc.error ‹_›
      | rintro _ ⟨⟩
    all_goals first
      | exact hr
      | exact ha.ok ‹_›
      | exact hp.ok ‹_›
      | exact hc.ok ‹_›

lemma within_compound (isFirst : Bool) (ht : ts ⊆ all) :
    Within all (·.2 ⊆ all) (compound nested ctx last isFirst ts) := by
  fun_induction compound nested ctx last isFirst ts with
  | case1 _ _ fault hs => exact (within_simple? hl hn ctx _ ht).error hs
  | case2 => exact ht
  | case3 _ _ _ _ hs _ fault hr ih =>
    exact (ih ((within_simple? hl hn ctx _ ht).ok hs _ rfl)).error hr
  | case4 _ _ _ _ hs _ _ _ hr ih =>
    have hm := (ih ((within_simple? hl hn ctx _ ht).ok hs _ rfl)).ok hr
    exact hm

lemma blamed_compounds (ht : ts ⊆ all) : Blamed all (compounds nested ctx last ts) := by
  have hr {ts rest : List Token} {parts : List Part} (ht : ts ⊆ all)
      (h : compound nested ctx last true ts = .ok (parts,rest)) : rest ⊆ all :=
    (within_compound hl hn ctx true ht).ok h
  fun_induction compounds nested ctx last ts with
  | case1 _ fault h => exact (within_compound hl hn ctx true ht).error h
  | case2 _ _ h => exact blames_faultAt hl (hr ht h) _
  | case4 _ _ _ rest h _ _ t post hd _ _ _ fault hf ih =>
    have ha := cons_subset_of_dropBlank (hr ht h) hd
    exact (ih (dropBlank_subset (subset_of_cons_subset ha))).error hf
  | case6 _ _ _ rest h _ _ t post hd _ _ _ fault hf ih =>
    exact (ih (cons_subset_of_dropBlank (hr ht h) hd)).error hf
  | case8 _ _ _ rest h _ _ t post hd =>
    exact blames_faultAt hl (cons_subset_of_dropBlank (hr ht h) hd) _
  | _ => exact trivial

omit hl in
lemma blamed_complex (ht : ts ⊆ all) : Blamed all (complex nested ctx ts) := by
  have hl := marks_getLast? ht
  unfold complex
  dsimp only
  split
  · exact blamed_compounds hl hn ctx (nil_subset _)
  · rename_i t rest hd
    have hb := cons_subset_of_dropBlank ht hd
    split
    · exact blamed_compounds hl hn ctx hb
    · split
      · have hc := blamed_compounds hl hn ctx (dropBlank_subset (subset_of_cons_subset hb))
        split
        · exact hc.error ‹_›
        · exact trivial
      · exact blames_faultAt hl hb _

end

omit hl in
lemma blamed_resolveScopes (ctx : Context) {span : Span} (hs : span.Marks all) (isGlobal : Bool) (out parts : List Part) :
    Blamed all (resolveScopes ctx span isGlobal out parts) := by
  fun_induction resolveScopes ctx span isGlobal out parts with
  | case1 => exact trivial
  | case3 => exact hs
  | case6 => exact hs
  | _ => assumption

omit hl in
lemma blamed_checkNesting (ctx : Context) (ht : ts ⊆ all) (s : Selector) : Blamed all (checkNesting ctx ts s) := by
  have hs := marks_spanOf ht
  unfold checkNesting
  repeat' split
  all_goals first
    | exact trivial
    | exact hs
    | exact marks_getD (fun _ h => ht (mem_of_find?_eq_some h)) hs

omit hl in
lemma blamed_parseDeep (depth : Nat) (ctx : Context) (ht : ts ⊆ all) : Blamed all (parseDeep depth ctx ts) := by
  induction depth generalizing ctx ts with
  | zero => exact .inl rfl
  | succ depth ih =>
    refine within_bind (blamed_complex (fun ctx _ hp => ih ctx hp) ctx ht) fun s _ => ?_
    have hc := blamed_checkNesting ctx ht
    dsimp only
    split
    · exact within_bind (blamed_resolveScopes ctx (marks_spanOf ht) false [] s) fun s _ => hc s
    · exact hc s

omit hl in
lemma blamed_parseAll (ctx : Context) (ht : ts ⊆ all) : Blamed all (parseAll ctx ts) :=
  blamed_parseList ctx (fun ctx _ hp => blamed_parseDeep _ ctx hp) ht

end Selector

namespace Value
variable (file : SourceFile) (dashed : Bool)

lemma blamed_close {frame : Frame} (hf : frame.opening ∈ all) (contents : Value) :
    Blamed all (frame.close file dashed contents) := by
  have hr : Blamed all (reference? dashed frame.opening.span contents) := by
    unfold reference?
    dsimp only
    repeat' split
    all_goals first
      | exact trivial
      | exact Token.marks hf
  unfold Frame.close call
  repeat' split
  all_goals first
    | exact trivial
    | exact hr.error ‹_›

lemma blamed_parseFrom {skip stop : Nat} {stack : List Frame} {items : List Component}
    (hs : ∀ frame ∈ stack, frame.opening ∈ all) (ht : ts ⊆ all) :
    Blamed all (parseFrom file dashed skip stack items stop ts) := by
  induction ts generalizing skip stop stack items with
  | nil =>
    cases stack with
    | nil => exact trivial
    | cons frame stack => exact Token.marks (hs frame mem_cons_self)
  | cons t rest ih =>
    have hr := subset_of_cons_subset ht
    have hm : t ∈ all := ht mem_cons_self
    cases skip with
    | succ skip =>
      rw [parseFrom]
      exact ih hs hr
    | zero =>
      rcases stack with _ | ⟨frame,stack⟩
      all_goals
        rw [parseFrom.eq_def]
        dsimp only
        repeat' split
      all_goals first
        | exact ih hs hr
        | exact ih (forall_mem_cons.mpr ⟨hm,hs⟩) hr
        | exact Token.marks hm
        | exact ih (forall_mem_cons.mp hs).2 hr
        | exact (blamed_close file dashed (forall_mem_cons.mp hs).1 _).error ‹_›

lemma blamed_parse (ht : ts ⊆ all) : Blamed all (parse file dashed ts) :=
  blamed_parseFrom file dashed (forall_mem_nil _) ht

end Value

namespace Media
variable (file : SourceFile)

lemma blames_faultAt (hl : last.Marks all) (ht : ts ⊆ all) : (faultAt last ts).Blames all :=
  marks_head? (dropBlank_subset ht) hl

section
variable {fault : Fault} (hf : fault.Blames all)
include hf

lemma blamed_rangeFeature? (ht : ts ⊆ all) : Blamed all (rangeFeature? file fault ts) := by
  obtain ⟨hb,hm⟩ := sublist_splitComparisons ts
  have hv {part : List Token} (hp : part.Sublist ts) : Blamed all (parse file false (trimBlank part)) :=
    blamed_parse file false (trimBlank_subset (Subset.trans hp.subset ht))
  have hfirst := hv hb.sublist
  unfold rangeFeature?
  dsimp only
  generalize hs : (splitComparisons ts).2.map _ = more
  have hmore : ∀ found ∈ more, Blamed all (parse file false found.2) := by
    intro found h
    rw [← hs] at h
    obtain ⟨part,hp,rfl⟩ := mem_map.mp h
    exact hv (hm part hp)
  repeat' split
  · exact trivial
  · exact within_bind (hmore _ mem_cons_self) fun _ _ => trivial
  · exact within_bind hfirst fun _ _ => trivial
  · exact hf
  · exact hf
  · exact hf
  · refine within_bind hfirst fun _ _ => ?_
    exact within_bind (hmore _ (mem_cons_of_mem _ mem_cons_self)) fun _ _ => trivial
  · exact trivial

lemma blamed_feature? (ht : ts ⊆ all) : Blamed all (feature? file fault ts) := by
  have hb := trimBlank_subset ht
  have hr := blamed_rangeFeature? file hf hb
  unfold feature?
  dsimp only
  split
  · exact trivial
  · rename_i t rest he
    rw [he] at hb
    split
    · split
      · exact trivial
      · rename_i u post hd
        have ha := cons_subset_of_dropBlank (subset_of_cons_subset hb) hd
        repeat' split
        · exact hf
        · have hv := blamed_parse file false (trimBlank_subset (subset_of_cons_subset ha))
          exact within_bind hv fun _ _ => trivial
        · exact hr
    · exact hr

end

variable {nested : Nested} (hn : ∀ part, part ⊆ all → Blamed all (nested part)) (hl : last.Marks all)
include hn hl

lemma within_inParens (ht : ts ⊆ all) : Within all (·.2 ⊆ all) (inParens file nested last ts) := by
  unfold inParens
  split
  · exact blames_faultAt hl (nil_subset _)
  · rename_i t rest hd
    have hb := cons_subset_of_dropBlank ht hd
    split
    · split
      · exact blames_faultAt hl hb
      · rename_i inner post hs
        obtain ⟨u,-,rfl⟩ := eq_of_splitParens hs
        obtain ⟨hi,ha⟩ := append_subset.mp (subset_of_cons_subset hb)
        have ha := subset_of_cons_subset ha
        have hf := blamed_feature? file (blames_faultAt hl ha) hi
        dsimp only
        repeat' split
        all_goals first
          | exact ha
          | exact (hn inner hi).error ‹_›
          | exact hf.error ‹_›
    · exact blames_faultAt hl hb

lemma within_operands (allowOr : Bool) (connective : Option Connective) (ht : ts ⊆ all) :
    Within all (·.2.2 ⊆ all) (operands file nested last allowOr connective ts) := by
  have hp {ts post : List Token} {word : String} (ht : ts ⊆ all) (h : keyword? ts = some (word,post)) :
      Within all (·.2 ⊆ all) (inParens file nested last post) :=
    within_inParens file hn hl (Subset.trans (sublist_of_keyword? h).subset ht)
  fun_induction operands file nested last allowOr connective ts with
  | case1 => exact ht
  | case2 => exact blames_faultAt hl ht
  | case3 => exact blames_faultAt hl ht
  | case4 _ _ _ _ h _ _ _ fault hf => exact (hp ht h).error hf
  | case5 _ _ _ _ h _ _ _ _ _ hc _ _ fault hf ih => exact (ih ((hp ht h).ok hc)).error hf
  | case6 _ _ _ _ h _ _ _ _ _ hc _ _ _ _ _ hf ih =>
    have hm := (ih ((hp ht h).ok hc)).ok hf
    exact hm

lemma within_condition (allowOr : Bool) (ht : ts ⊆ all) :
    Within all (·.2 ⊆ all) (condition file nested last allowOr ts) := by
  unfold condition
  split
  · rename_i post hk
    have ha := Subset.trans (sublist_of_keyword? hk).subset ht
    exact within_bind (within_inParens file hn hl ha) fun _ h => h
  · refine within_bind (within_inParens file hn hl ht) fun found h => ?_
    refine within_bind (within_operands file hn hl allowOr none h) fun _ h => ?_
    split <;> exact h

omit hn hl in
lemma blamed_conditionDeep (depth : Nat) (ht : ts ⊆ all) : Blamed all (conditionDeep file depth ts) := by
  induction depth generalizing ts with
  | zero => exact .inl rfl
  | succ depth ih =>
    have hl := marks_getLast? ht
    refine within_bind (within_condition file (fun _ => ih) hl true ht) fun found h => ?_
    dsimp only
    split
    · exact trivial
    · exact blames_faultAt hl h

omit hn hl in
lemma blamed_query (ht : ts ⊆ all) : Blamed all (query file ts) := by
  have hl := marks_getLast? ht
  have hk {ts post : List Token} {word : String} (ht : ts ⊆ all) (h : keyword? ts = some (word,post)) : post ⊆ all :=
    Subset.trans (sublist_of_keyword? h).subset ht
  have hc (allowOr : Bool) {rest : List Token} (hr : rest ⊆ all) :=
    within_condition file (fun _ => blamed_conditionDeep file ts.length) hl allowOr hr
  have hq := Subset.trans (sublist_qualifier ts).subset ht
  have he (found : MediaQuery × List Token) (h : found.2 ⊆ all) : Blamed all
      (if (dropBlank found.2).isEmpty then pure found.1 else .error (faultAt (lastSpan ts) found.2)) := by
    split
    · exact trivial
    · exact blames_faultAt hl h
  unfold query
  dsimp only
  split
  · rename_i word post hw
    have ha := hk hq hw
    split
    · exact within_bind (hc true hq) fun _ h => he _ h
    split
    · exact blames_faultAt hl hq
    split
    · exact he _ ha
    split
    · exact within_bind (hc false (hk ha ‹_›)) fun _ h => he _ h
    · exact blames_faultAt hl ha
  · split
    · exact blames_faultAt hl hq
    · exact within_bind (hc true hq) fun _ h => he _ h

end Media

lemma MediaList.blamed_parse (file : SourceFile) (ht : ts ⊆ all) : Blamed all (MediaList.parse file ts) :=
  blamed_mapM fun _ hp => Media.blamed_query file fun _ hu =>
    trimBlank_subset ht ((sublist_of_mem_commaParts hp).subset hu)

lemma Prelude.blamed_importSheet? (file : SourceFile) (ht : ts ⊆ all) : Blamed all (Prelude.importSheet? file ts) := by
  unfold Prelude.importSheet?
  split
  · exact trivial
  · rename_i url rest ha
    have ha := trimBlank_subset (Subset.trans (sublist_of_address? ha).subset ht)
    split
    · exact trivial
    · rename_i layer rest hy
      have hy := Subset.trans (sublist_of_importLayer? hy).subset ha
      split
      · rename_i fault hs
        unfold importSupports? at hs
        repeat' split at hs
        all_goals cases hs
        refine (blamed_parse file false fun _ hu => hy (mem_cons_of_mem _ ?_)).error ‹_›
        exact (sublist_of_arguments? ‹_›).1.subset hu
      · exact trivial
      · rename_i supports rest hs
        have hs := Subset.trans (sublist_of_importSupports? hs).subset hy
        have hm := MediaList.blamed_parse file hs
        split
        · exact hm.error ‹_›
        · exact trivial

namespace Declaration

lemma splitImportant_cases (ht : ts ⊆ all) : (∃ span, splitImportant ts = .error span ∧ span.Marks all) ∨
      ∃ value important, splitImportant ts = .ok (value,important) ∧ value ⊆ all := by
  have happ (ts : List Token) := splitBefore_append (fun t => t.isDelim '!') 0 ts
  have hs := happ ts
  unfold splitImportant
  dsimp only
  split
  · exact .inr ⟨ts,false,rfl,ht⟩
  · rename_i pre bang post hb
    rw [hb] at hs
    subst hs
    obtain ⟨hbefore,ht⟩ := append_subset.mp ht
    have hbang := Token.marks (ht mem_cons_self)
    split
    · rename_i second more hm
      refine .inl ⟨second.span,rfl,Token.marks (ht (mem_cons_of_mem bang ?_))⟩
      rw [← happ post,hm]
      exact mem_append_right _ mem_cons_self
    · repeat' split
      · exact .inr ⟨_,true,rfl,trimBlank_subset hbefore⟩
      · exact .inl ⟨bang.span,rfl,hbang⟩
      · exact .inl ⟨bang.span,rfl,hbang⟩

lemma blamed_parse (d : Dialect) (name : Token) (rest : List Token) : Blamed (name :: rest) (parse d name rest) := by
  have hn : name.span.Marks (name :: rest) := Token.marks mem_cons_self
  have hr : rest ⊆ name :: rest := subset_cons_self name rest
  unfold parse
  split
  · exact hn
  · rename_i ts ha
    have ht : trimBlank ts ⊆ name :: rest := by
      split at ha
      · unfold afterColon? at ha
        repeat' split at ha
        all_goals cases ha
        exact trimBlank_subset (subset_of_cons_subset (cons_subset_of_dropBlank hr ‹_›))
      · cases ha
    obtain ⟨span,hi,hs⟩ | ⟨value,important,hi,hs⟩ := splitImportant_cases ht
    · rw [hi]
      exact hs
    · have hv := Value.blamed_parse d.file (d.modules && d.dashed) hs
      rw [hi]
      dsimp only
      repeat' split
      · exact hn
      · exact hv.error ‹_›
      · exact trivial

lemma blamed_parseEntry (d : Dialect) (name : Token) (rest : List Token) :
    Blamed (name :: rest) (parseEntry d name rest) := by
  have hp := blamed_parse d name rest
  unfold parseEntry
  repeat' split
  · exact hp.error ‹_›
  · exact trivial
  · exact Token.marks mem_cons_self
  · exact trivial

end Declaration
end Css
