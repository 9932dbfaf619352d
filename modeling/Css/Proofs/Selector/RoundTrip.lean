import Css.Proofs.Selector.Reading
import Mathlib.Data.List.Induction

/-!
# Selectors are read back

The text of a parsed selector is cut into tokens that are parsed as the same selector.
-/
namespace Css
open List Text Token Bool Css.Part Cursor

lemma Token.scans_gap (tight : Bool) : Scans startsSolid (gap tight) := by
  cases tight
  · exact scans_blank
  · exact scans_nil _

namespace Selector

/-- How a selector reads back: its text is cut into its tokens, and the parser makes the selector of
them. -/
structure ReadsAs (tight : Bool) (ctx : Context) (s : Selector) : Prop where
  stretch : IsStretch (s.shapes tight)
  start : (s.shapes tight).head?.any Shape.startsSelector = true
  pretty : (s.render {}).toList = textOf (s.shapes false)
  parsed : ∀ {depth : Nat} {ts : List Token}, ts.map shape = s.shapes tight →
    (s.shapes tight).length < depth → parseDeep depth ctx ts = .ok s

variable {sels : List Selector} {tight : Bool} {ctx : Context}

lemma length_shapes_le (tight : Bool) {s : Selector} (h : s ∈ sels) :
    (s.shapes tight).length ≤ (shapesAll tight sels).length := by
  induction sels with
  | nil => cases h
  | cons s' sels ih =>
    by_cases hn : sels = []
    · subst hn
      rw [mem_singleton.mp h]
      exact Nat.le_refl _
    · rw [shapesAll_cons tight s' hn,length_append,length_cons,length_append]
      rcases mem_cons.mp h with rfl | h
      · omega
      · have := ih h
        omega

section
variable {tight : Bool} {ctx : Context} {sels : List Selector} (h : ∀ s ∈ sels, ReadsAs tight ctx s)

include h

lemma balanced_shapesAll : Balanced false ((shapesAll tight sels).map Prod.fst) := by
  induction sels with
  | nil => exact .nil
  | cons s sels ih =>
    have hs := h s mem_cons_self
    by_cases hn : sels = []
    · subst hn
      exact hs.stretch.balanced.inside
    · have hm := ih fun t ht => h t (mem_cons_of_mem s ht)
      have hg : Balanced false ((gap tight).map Prod.fst) := by
        cases tight
        · exact .flat rfl (fun h => absurd h false_ne_true) .nil
        · exact .nil
      rw [shapesAll_cons tight s hn,map_append,map_cons,map_append]
      exact hs.stretch.balanced.inside.append (.flat rfl (fun h => absurd h false_ne_true) (hg.append hm))

lemma scans_shapesAll (hne : sels ≠ []) : Scans Lexer.endsName (shapesAll tight sels) ∧
      ∀ rest, startsSolid (textOf (shapesAll tight sels) ++ rest) := by
  induction sels, hne using recNeNil with
  | singleton s =>
    have hs := (h s mem_cons_self).stretch
    exact ⟨hs.scans,hs.startsSolid_append⟩
  | cons s sels hn ih =>
    obtain ⟨hs,hm⟩ := forall_mem_cons.mp h
    obtain ⟨hsc,hsl⟩ := ih hm
    have hc : Scans anything [(.comma,",")] := scans_char fun _ => rfl
    have hg := (scans_gap tight).append hsc fun rest _ => hsl rest
    have hl := hs.stretch.scans.append (hc.append hg fun _ _ => rfl) fun _ _ => rfl
    rw [shapesAll_cons tight s hn]
    refine ⟨hl,fun rest => ?_⟩
    rw [textOf_append,append_assoc]
    exact hs.stretch.startsSolid_append _

lemma start_shapesAll (hne : sels ≠ []) : (shapesAll tight sels).head?.any Shape.startsSelector := by
  cases sels with
  | nil => exact absurd rfl hne
  | cons s sels =>
    have hs := (h s mem_cons_self).start
    by_cases hn : sels = []
    · subst hn
      exact hs
    · rw [shapesAll_cons tight s hn]
      exact any_head?_append hs _

lemma toList_renderAll : (renderAll {} sels).toList = textOf (shapesAll false sels) := by
  induction sels with
  | nil => rfl
  | cons s sels ih =>
    have hs := h s mem_cons_self
    have hm := ih fun t ht => h t (mem_cons_of_mem s ht)
    cases sels with
    | nil => exact hs.pretty
    | cons s' sels =>
      rw [shapesAll_cons false s (cons_ne_nil s' sels),textOf_append,textOf_cons,
        textOf_append,← hm,← hs.pretty,renderAll,Part.render.renderAll,
        String.toList_append,String.toList_append,append_assoc]
      · rfl
      · simp

end

variable {ts : List Token}

lemma isBlank_of_gap (h : ts.map shape = gap tight) : ∀ t ∈ ts, t.isBlank := by
  intro t ht
  have hm := mem_map_of_mem (f := shape) ht
  rw [h] at hm
  cases tight with
  | true => cases hm
  | false =>
    rw [Token.isBlank,kind_of_shape (mem_singleton.mp hm)]; rfl

lemma mapM_of_shapesAll (fault : Fault) {depth : Nat}
    (h : ∀ s ∈ sels, ReadsAs tight ctx s) (hd : (shapesAll tight sels).length < depth)
    (hne : sels ≠ []) {pre : List Token} (hb : ∀ t ∈ pre, t.isBlank)
    (hts : ts.map shape = shapesAll tight sels) :
    ((partsFrom 0 (pre ++ ts)).map trimBlank).mapM
      (fun part => if part.isEmpty then .error fault else parseDeep depth ctx part) = .ok sels := by
  have hf {s : Selector} (hm : s ∈ sels) {ts : List Token} (hts : ts.map shape = s.shapes tight) :
      (if ts.isEmpty then .error fault else parseDeep depth ctx ts) = .ok s := by
    have hn : ts.isEmpty = false := by
      rw [isEmpty_eq_false_iff]
      rintro rfl
      exact (h s hm).stretch.shapes_ne_nil hts.symm
    rw [hn]
    exact (h s hm).parsed hts (Nat.lt_of_le_of_lt (length_shapes_le tight hm) hd)
  induction sels, hne using recNeNil generalizing pre ts with
  | singleton s =>
    have hs := (h s mem_cons_self).stretch
    have hp : partsFrom 0 (pre ++ ts ++ []) = [pre ++ ts ++ []] :=
      partsFrom_append (balanced_append hb hts hs.balanced) rfl
    rw [append_nil] at hp
    rw [hp,map_singleton,trimBlank_append hs hb hts,mapM_cons,hf mem_cons_self hts]; rfl
  | cons s sels hn ih =>
    have hs := (h s mem_cons_self).stretch
    rw [shapesAll_cons tight s hn] at hts hd
    obtain ⟨first,post,rfl,hl,ha⟩ := map_eq_append_iff.mp hts
    obtain ⟨c,post,rfl,hc,ha⟩ := map_eq_cons_iff.mp ha
    obtain ⟨blanks,post,rfl,hbl,ha⟩ := map_eq_append_iff.mp ha
    have hcm : partsFrom 0 (c :: (blanks ++ post)) = [] :: partsFrom 0 (blanks ++ post) := by
      rw [partsFrom,kind_of_shape hc]; rfl
    have hp : partsFrom 0 (pre ++ first ++ c :: (blanks ++ post)) =
        (pre ++ first ++ []) :: partsFrom 0 (blanks ++ post) :=
      partsFrom_append (balanced_append hb hl hs.balanced) hcm
    simp only [length_append,length_cons] at hd
    have hm := ih (forall_mem_cons.mp h).2 (by omega) (isBlank_of_gap hbl) ha fun hm => hf (mem_cons_of_mem s hm)
    rw [← append_assoc,hp,append_nil,map_cons,trimBlank_append hs hb hl,mapM_cons,hf mem_cons_self hl,hm]
    rfl

lemma parseList_of_shapesAll {depth : Nat} (h : ∀ s ∈ sels, ReadsAs tight ctx s)
    (hd : (shapesAll tight sels).length < depth) (hne : sels ≠ [])
    (hts : ts.map shape = shapesAll tight sels) :
    parseList (parseDeep depth) ctx ts = .ok sels := by
  have hn : ts.isEmpty = false := by
    rw [isEmpty_eq_false_iff]
    rintro rfl
    obtain ⟨s,hs⟩ := exists_mem_of_ne_nil sels hne
    have hl := length_shapes_le tight hs
    rw [← hts,map_nil,length_nil,Nat.le_zero,length_eq_zero_iff] at hl
    exact (h s hs).stretch.shapes_ne_nil hl
  have hm (fault : Fault) := mapM_of_shapesAll fault h hd hne (forall_mem_nil _) hts
  rw [parseList,commaParts,hn,if_neg Bool.false_ne_true]
  split
  · rename_i hp
    have hm := hm (.parse .expectedSelector .none)
    rw [nil_append,isEmpty_iff.mp hp,mapM_nil] at hm
    exact absurd (Except.ok.inj hm).symm hne
  · exact hm _

lemma isNameable_of_mem_selectorFunctions :
    ∀ name ∈ selectorFunctions, Written.HasNoNull name.toList ∧ name ≠ "" ∧ lower name = name ∧
      sameLetters (Written.identifier name) "url" = false := by
  decide

lemma readsAs_pseudoClassOf (hm : ctx.modules = false) {name : String} (hn : name ∈ selectorFunctions) (hne : sels ≠ [])
    (h : ∀ s ∈ sels, ReadsAs tight (ctx.arguments (name == "has")) s) :
    Part.ReadsAs tight ctx (.pseudoClassOf name sels) := by
  obtain ⟨hnl,he,hl,hur⟩ := isNameable_of_mem_selectorFunctions name hn
  have hs (tight : Bool) : (Part.pseudoClassOf name sels).shapes tight false =
      (.colon,":") :: (.function,Written.identifier name ++ "(") :: (shapesAll tight sels ++ [(.rightParen,")")]) := rfl
  refine ⟨⟨?_,?_,rfl,rfl,?_⟩,rfl,fun _ => rfl,fun _ => rfl,?_,?_⟩
  · have hp : Scans anything [(.rightParen,")")] := scans_char fun _ => rfl
    have har := (scans_shapesAll h hne).1.append hp fun _ _ => rfl
    have hf := (scans_function hnl he hur).append har fun _ _ => rfl
    rw [hs]
    exact (scans_colon.append hf fun _ _ => rfl).mono fun _ _ => rfl
  · have hc : Balanced true [.colon] := .of_flat rfl
    have hg : Balanced true (.function :: (shapesAll tight sels).map Prod.fst ++ [.rightParen]) :=
      .group rfl rfl (balanced_shapesAll h) .nil
    rw [hs,map_cons,map_cons,map_append]
    exact hc.append hg
  · exact any_getLast?_append (_ :: _ :: shapesAll tight sels) rfl
  · rw [hs,textOf_cons,textOf_cons,textOf_append,← toList_renderAll h,Part.render,
      String.toList_append,String.toList_append,String.toList_append,String.toList_append,
      String.toList_append,append_assoc,append_assoc,append_assoc,append_assoc]
    rfl
  · intro depth last isFirst ts rest hts hd _
    rw [hs] at hts hd
    obtain ⟨t,u,post,rfl,ht,hu,ha⟩ := exists_pair_of_shapes hts
    obtain ⟨args,post,rfl,har,ha⟩ := map_eq_append_iff.mp ha
    obtain ⟨v,post,rfl,hv,ha⟩ := map_eq_cons_iff.mp ha
    rw [map_eq_nil_iff.mp ha]
    have hk := kind_of_shape hu
    have hls : parseList (parseDeep depth) (ctx.arguments (name == "has")) args = .ok sels := by
      refine parseList_of_shapesAll h ?_ hne har
      simp only [length_cons,length_append] at hd
      omega
    have hsp : splitParens 1 (args ++ v :: rest) = some (args,rest) := by
      have hb : Balanced false (args.map kind) := by
        have hal := balanced_shapesAll h
        rw [← har,map_map] at hal
        exact hal
      have hcl : splitParens 1 (v :: rest) = some ([],rest) := by
        rw [splitParens,kind_of_shape hv]; rfl
      rw [splitParens_append hb,hcl,Option.map_some,append_nil]
    have hf : pseudoFunction (parseDeep depth) ctx name args = .ok [.pseudoClassOf name sels] := by
      rw [pseudoFunction,hm,contains_iff_mem.mpr hn,hls]; rfl
    have hps : pseudo (parseDeep depth) ctx last (u :: (args ++ v :: rest)) = .ok ([.pseudoClassOf name sels],rest) := by
      rw [pseudo,hk,if_neg (by decide),pseudoNamed,hk,hsp,keyword,name_of_function hnl hk (text_of_shape hu),hl]
      dsimp only
      rw [if_neg Bool.false_ne_true,hf]
    have htk : t :: u :: (args ++ [v]) ++ rest = t :: u :: (args ++ v :: rest) := by simp
    rw [htk,simple?,kind_of_shape ht,hps]

end Selector

namespace Combinator

def mayFollow (tight : Bool) (rest : List Char) : Bool :=
  if tight then rest.head? == some ':' else startsSolid rest

variable {tight : Bool}

lemma startsSolid_of_mayFollow {rest : List Char} (h : mayFollow tight rest) : startsSolid rest := by
  cases tight with
  | false => exact h
  | true =>
    rw [startsSolid,eq_of_beq h]; rfl

lemma scans_lead {c : Combinator} (hc : c ≠ descendant) (tight : Bool) :
    Scans (mayFollow tight) (c.leadShapes tight) := by
  -- A plus sign before a digit would be a part of a number.
  have hs {d : Char} (hb : ∀ rest, Lexer.next (d :: ' ' :: rest) = ⟨.delim,[d],' ' :: rest⟩)
      (hcl : ∀ rest, Lexer.next (d :: ':' :: rest) = ⟨.delim,[d],':' :: rest⟩) :
      Scans (mayFollow tight) ((.delim,String.ofList [d]) :: gap tight) := by
    intro rest hr
    rw [textOf_cons,String.toList_ofList,append_assoc]
    cases tight with
    | false =>
      change Token.shapes (d :: ' ' :: rest) = _
      rw [shapes_eq_cons (cons_ne_nil _ _),hb]
      exact congrArg _ (scans_blank rest hr)
    | true =>
      cases rest with
      | nil => cases hr
      | cons x rest =>
        cases eq_of_beq hr
        change Token.shapes (d :: ':' :: rest) = _
        rw [shapes_eq_cons (cons_ne_nil _ _),hcl]; rfl
  cases c with
  | descendant => exact absurd rfl hc
  | child | nextSibling | laterSibling => exact hs (fun _ => rfl) fun _ => rfl

lemma scans_shapes (c : Combinator) (tight : Bool) : Scans (mayFollow tight) (c.shapes tight) := by
  by_cases hc : c = descendant
  · subst hc
    exact scans_blank.mono fun _ => startsSolid_of_mayFollow
  · rw [shapes_of_ne tight hc]
    refine scans_blank.append (scans_lead hc tight) fun rest _ => ?_
    cases c with
    | descendant => exact absurd rfl hc
    | _ => rfl

lemma mayFollow_append {l : List Shape} (h : IsStretch l) (ht : tight → l.head? = some (.colon,":")) (rest : List Char) :
    mayFollow tight (textOf l ++ rest) := by
  cases tight with
  | false => exact h.startsSolid_append rest
  | true =>
    cases l with
    | nil => cases ht rfl
    | cons s l =>
      cases ht rfl
      rfl

variable {l l' : List Shape}

lemma isStretch_combined (h : IsStretch l) (h' : IsStretch l') (c : Combinator)
    (ht : tight → l'.head? = some (.colon,":")) :
    IsStretch (l ++ (c.shapes tight ++ l')) where
  scans := by
    have ha := (scans_shapes c tight).append h'.scans fun rest _ => mayFollow_append h' ht rest
    exact h.scans.append ha fun _ _ => by cases c <;> rfl
  balanced := by
    have hc : Balanced true ((c.shapes tight).map Prod.fst) := .of_flat (by cases c <;> cases tight <;> rfl)
    rw [map_append,map_append]
    exact h.balanced.append (hc.append h'.balanced)
  solid := by
    rw [textOf_append]
    exact h.startsSolid_append _
  first := any_head?_append h.first _
  last := any_getLast?_append l (any_getLast?_append (c.shapes tight) h'.last)

lemma isStretch_lead (h : IsStretch l) {c : Combinator} (hc : c ≠ descendant)
    (ht : tight → l.head? = some (.colon,":")) : IsStretch (c.leadShapes tight ++ l) where
  scans := (scans_lead hc tight).append h.scans fun rest _ => mayFollow_append h ht rest
  balanced := by
    rw [map_append]
    exact Balanced.append (.of_flat (by cases tight <;> rfl)) h.balanced
  solid := by
    cases c with
    | descendant => exact absurd rfl hc
    | _ => rfl
  first := rfl
  last := any_getLast?_append (c.leadShapes tight) h.last

end Combinator

namespace Part

lemma ReadsAs.isCombinator {tight : Bool} {ctx : Selector.Context} {p : Part}
    (h : p.ReadsAs tight ctx) : p.isCombinator = false := by
  cases p with
  | combinator c =>
    have hs := h.start
    cases c <;> cases hs
  | _ => rfl

end Part

namespace Selector
open Part.render Part.shapes

structure CompoundReadsAs (tight : Bool) (ctx : Context) (isFirst : Bool)
    (ps : List Part) : Prop where
  simple : ∀ p ∈ ps, p.isCombinator = false
  stretch : IsStretch (ofParts tight ps)
  start : (ofParts tight ps).head?.any Shape.startsCompound = true
  colon : ps.head?.any Part.isPseudo = true → (ofParts tight ps).head? = some (.colon,":")
  ends : isFirst = false → Lexer.endsName (textOf (ofParts tight ps)) = true
  pretty : (renderParts {} ps).toList = textOf (ofParts false ps)
  parsed : ∀ {depth : Nat} {last : Span} {ts rest : List Token}, ts.map shape = ofParts tight ps →
    (ofParts tight ps).length ≤ depth → rest.head?.all Token.isBlank = true →
      compound (parseDeep depth) ctx last isFirst (ts ++ rest) = .ok (ps,rest)

section
variable {tight : Bool} {ctx : Context} {isFirst : Bool}

lemma compound_of_blank {nested : Nested} {last : Span} {rest : List Token} (h : rest.head?.all Token.isBlank) :
    compound nested ctx last isFirst rest = .ok ([],rest) := by
  have hs : simple? nested ctx last isFirst rest = .ok none := by
    cases rest with
    | nil => rfl
    | cons t rest =>
      have hk : t.kind = .whitespace := eq_of_beq h
      rw [simple?,hk]
  rw [compound_eq,hs]

variable {p : Part} {ps : List Part}

lemma compound_cons {nested : Nested} {last : Span} {ts post rest : List Token}
    (hs : simple? nested ctx last isFirst ts = .ok (some ([p],post)))
    (hm : compound nested ctx last false post = .ok (ps,rest)) :
    compound nested ctx last isFirst ts = .ok (p :: ps,rest) := by
  rw [compound_eq,hs]
  dsimp only
  rw [hm]; rfl

lemma compoundReadsAs_singleton (h : p.ReadsAs tight ctx)
    (hf : isFirst ∨ p.isType = false) : CompoundReadsAs tight ctx isFirst [p] := by
  have hs (tight : Bool) : ofParts tight [p] = p.shapes tight false := by
    rw [ofParts_cons h.isCombinator,ofParts,append_nil]
  refine ⟨?_,?_,?_,?_,?_,?_,?_⟩
  · intro q hq
    rw [mem_singleton.mp hq]
    exact h.isCombinator
  · rw [hs]
    exact h.stretch
  · rw [hs]
    exact h.start
  · rw [hs]
    exact h.colon
  · rintro rfl
    rw [hs]
    exact h.ends (hf.resolve_left false_ne_true)
  · rw [hs,renderParts,renderParts,String.append_empty]
    exact h.pretty
  · intro depth last ts rest hts hd hr
    rw [hs] at hts hd
    exact compound_cons (h.parsed hts hd hf) (compound_of_blank hr)

lemma compoundReadsAs_cons (h : p.ReadsAs tight ctx)
    (h' : CompoundReadsAs tight ctx false ps) (hf : isFirst ∨ p.isType = false) :
    CompoundReadsAs tight ctx isFirst (p :: ps) := by
  have hs (tight : Bool) : ofParts tight (p :: ps) =
      p.shapes tight false ++ ofParts tight ps := ofParts_cons h.isCombinator tight ps
  refine ⟨?_,?_,?_,?_,?_,?_,?_⟩
  · exact forall_mem_cons.mpr ⟨h.isCombinator,h'.simple⟩
  · rw [hs]
    exact h.stretch.append h'.stretch (h'.ends rfl)
  · rw [hs]
    exact any_head?_append h.start _
  · intro hp
    rw [hs,head?_append,h.colon hp]; rfl
  · rintro rfl
    rw [hs,textOf_append]
    exact h.stretch.endsName_append (h.ends (hf.resolve_left Bool.false_ne_true)) _
  · rw [hs,renderParts,String.toList_append,textOf_append,h.pretty,h'.pretty]
  · intro depth last ts rest hts hd hr
    rw [hs] at hts hd
    obtain ⟨first,post,rfl,hts,ha⟩ := map_eq_append_iff.mp hts
    rw [length_append] at hd
    rw [append_assoc]
    exact compound_cons (h.parsed hts (by omega) hf) (h'.parsed ha (by omega) hr)

lemma compoundReadsAs_of_parts (hne : ps ≠ []) (h : ∀ p ∈ ps, p.ReadsAs tight ctx)
    (ht : ∀ p ∈ ps.tail, p.isType = false) (hf : isFirst ∨ ∀ p ∈ ps, p.isType = false) :
    CompoundReadsAs tight ctx isFirst ps := by
  induction ps, hne using recNeNil generalizing isFirst with
  | singleton p => exact compoundReadsAs_singleton (h p mem_cons_self) (hf.imp_right fun ha => ha p mem_cons_self)
  | cons p ps _ ih =>
    obtain ⟨hp,hps⟩ := forall_mem_cons.mp h
    have hpr : CompoundReadsAs tight ctx false ps := ih hps (fun q hq => ht q (mem_of_mem_tail hq)) (.inr ht)
    exact compoundReadsAs_cons hp hpr (hf.imp_right fun ha => ha p mem_cons_self)

end

structure ChainReadsAs (tight : Bool) (ctx : Context) (s : Selector) : Prop where
  stretch : IsStretch (ofParts tight s)
  start : (ofParts tight s).head?.any Shape.startsCompound = true
  colon : s.head?.any Part.isPseudo = true → (ofParts tight s).head? = some (.colon,":")
  pretty : (renderParts {} s).toList = textOf (ofParts false s)
  parsed : ∀ {depth : Nat} {last : Span} {ts : List Token}, ts.map shape = ofParts tight s →
    (ofParts tight s).length ≤ depth → compounds (parseDeep depth) ctx last ts = .ok s

section
variable {tight : Bool} {ctx : Context} {t : Token}

lemma combinator?_of_startsCompound (h : t.shape.startsCompound) : combinator? t = none ∧ t.kind ≠ .whitespace := by
  have ho {kind : Kind} (hk : t.kind = kind) (hd : kind ≠ .delim)
      (hb : kind ≠ .whitespace) : combinator? t = none ∧ t.kind ≠ .whitespace := by
    have hn : t.delim? = none := by
      unfold delim?
      split
      · rename_i heq
        exact absurd (hk.symm.trans heq) hd
      · rfl
    rw [combinator?,hn,hk]
    exact ⟨rfl,hb⟩
  unfold Shape.startsCompound at h
  split at h
  iterate 4
    · rename_i hk
      exact ho hk (by decide) (by decide)
  · rename_i hk
    refine ⟨?_,fun hb => by cases hk.symm.trans hb⟩
    rw [or_eq_true,or_eq_true,beq_iff_eq,beq_iff_eq,beq_iff_eq] at h
    rcases h with (h | h) | h
    · rw [combinator?,delim?_of_shape (c := '*') (Prod.ext hk h)]; rfl
    · rw [combinator?,delim?_of_shape (c := '&') (Prod.ext hk h)]; rfl
    · rw [combinator?,delim?_of_shape (c := '.') (Prod.ext hk h)]; rfl
  · cases h

lemma combinator?_of_symbol {c : Combinator} (hc : c ≠ .descendant)
    (h : t.shape = (.delim,c.symbol)) : combinator? t = some c := by
  cases c with
  | descendant => exact absurd rfl hc
  | child =>
    rw [combinator?,delim?_of_shape (c := '>') h]; rfl
  | nextSibling =>
    rw [combinator?,delim?_of_shape (c := '+') h]; rfl
  | laterSibling =>
    rw [combinator?,delim?_of_shape (c := '~') h]; rfl

variable {ps : List Part}

/-- A compound goes on behind white space, with a combinator or without one. -/
lemma compounds_behind {nested : Nested} {last : Span} {ts post : List Token} {w : Token} {c : Combinator}
    {more : Selector} (hne : ps ≠ []) (h : compound nested ctx last true ts = .ok (ps,w :: t :: post))
    (hw : w.kind = .whitespace) (ht : t.kind ≠ .whitespace)
    (hc : combinator? t = some c ∧ compounds nested ctx last (dropBlank post) = .ok more ∨
      combinator? t = none ∧ c = .descendant ∧ compounds nested ctx last (t :: post) = .ok more) :
    compounds nested ctx last ts = .ok (ps ++ .combinator c :: more) := by
  cases ps with
  | nil => exact absurd rfl hne
  | cons p ps =>
    rw [compounds_eq,h]
    dsimp only
    rw [dropBlank_blank hw,dropBlank_cons ht]
    dsimp only
    rcases hc with ⟨hc,hm⟩ | ⟨hc,rfl,hm⟩
    · rw [hc]
      dsimp only
      rw [hm]
    · rw [hc,head?_cons,Option.any_some,Token.isBlank,hw]
      dsimp only
      rw [hm]; rfl

lemma chainReadsAs_compound (hne : ps ≠ []) (h : CompoundReadsAs tight ctx true ps) : ChainReadsAs tight ctx ps where
  stretch := h.stretch
  start := h.start
  colon := h.colon
  pretty := h.pretty
  parsed := by
    intro depth last ts hts hd
    have hc : compound (parseDeep depth) ctx last true (ts ++ []) = .ok (ps,[]) := h.parsed hts hd rfl
    rw [append_nil] at hc
    cases ps with
    | nil => exact absurd rfl hne
    | cons p ps =>
      rw [compounds_eq,hc]; rfl

lemma renderParts_append (ps parts' : List Part) :
    renderParts {} (ps ++ parts') = renderParts {} ps ++ renderParts {} parts' := by
  induction ps with
  | nil => rw [nil_append,renderParts,String.empty_append]
  | cons p ps ih => rw [cons_append,renderParts,renderParts,ih,String.append_assoc]

lemma textOf_combinator (c : Combinator) : textOf (c.shapes false) = (Part.render {} (.combinator c)).toList := by
  cases c <;> rfl

lemma chainReadsAs_combined {rest : Selector} (hne : ps ≠ [])
    (h : CompoundReadsAs tight ctx true ps) (h' : ChainReadsAs tight ctx rest) (c : Combinator) :
    ChainReadsAs tight ctx (ps ++ .combinator c :: rest) := by
  have hs (tight : Bool) := ofParts_combined h.simple tight c rest
  have ht (hcl : (tight && rest.head?.any Part.isPseudo)) : (ofParts tight rest).head? = some (.colon,":") :=
    h'.colon ((Bool.and_eq_true _ _).mp hcl).2
  refine ⟨?_,?_,?_,?_,?_⟩
  · rw [hs]
    exact Combinator.isStretch_combined h.stretch h'.stretch c ht
  · rw [hs]
    exact any_head?_append h.start _
  · intro hp
    have hp : ps.head?.any Part.isPseudo := by
      cases ps with
      | nil => exact absurd rfl hne
      | cons p ps => exact hp
    rw [hs,head?_append,h.colon hp]; rfl
  · rw [hs,renderParts_append,renderParts,String.toList_append,String.toList_append,
      textOf_append,textOf_append,h.pretty,h'.pretty,Bool.false_and,textOf_combinator]
  · intro depth last ts hts hdp
    rw [hs] at hts hdp
    obtain ⟨first,post,rfl,hf,ha⟩ := map_eq_append_iff.mp hts
    obtain ⟨middle,second,rfl,hm,hsc⟩ := map_eq_append_iff.mp ha
    simp only [length_append] at hdp
    have hmr : compounds (parseDeep depth) ctx last second = .ok rest := h'.parsed hsc (by omega)
    have hcm (hb : (middle ++ second).head?.all Token.isBlank) :
        compound (parseDeep depth) ctx last true (first ++ (middle ++ second)) =
          .ok (ps,middle ++ second) := h.parsed hf (by omega) hb
    have hst := any_head?_of_map hsc h'.start
    cases second with
    | nil => cases hst
    | cons t second =>
      by_cases hc : c = .descendant
      · subst hc
        obtain ⟨w,us,rfl,hw,hus⟩ := map_eq_cons_iff.mp hm
        have hw := kind_of_shape hw
        rw [map_eq_nil_iff.mp hus] at hcm ⊢
        obtain ⟨hn,hk⟩ := combinator?_of_startsCompound hst
        exact compounds_behind hne (hcm (beq_iff_eq.mpr hw)) hw hk (.inr ⟨hn,rfl,hmr⟩)
      · rw [Combinator.shapes_of_ne _ hc] at hm
        obtain ⟨w,d,blanks,rfl,hw,hd,hbl⟩ := exists_pair_of_shapes hm
        have hw := kind_of_shape hw
        have hdr : dropBlank (blanks ++ t :: second) = t :: second := by
          rw [dropBlank_append (isBlank_of_gap hbl),dropBlank_cons (combinator?_of_startsCompound hst).2]
        rw [← hdr] at hmr
        exact compounds_behind hne (hcm (beq_iff_eq.mpr hw)) hw
          (by rw [kind_of_shape hd]; decide) (.inl ⟨combinator?_of_symbol hc hd,hmr⟩)

lemma chainReadsAs_of_isChain {inner : Context → Selector → Prop} {s : Selector}
    (hs : IsChain inner ctx s) (h : ∀ p ∈ s, p.Fits inner ctx → p.ReadsAs tight ctx) :
    ChainReadsAs tight ctx s := by
  have hc {ps : List Part} (hpr : IsCompound inner ctx ps) (h : ∀ p ∈ ps, p.Fits inner ctx → p.ReadsAs tight ctx) :
      CompoundReadsAs tight ctx true ps :=
    compoundReadsAs_of_parts hpr.nonempty (fun p hp => h p hp (hpr.fits p hp)) hpr.isType (.inl rfl)
  induction hs with
  | compound hpr => exact chainReadsAs_compound hpr.nonempty (hc hpr h)
  | @combined ps c rest hpr _ ih =>
    have hl := hc hpr fun p hp => h p (mem_append_left _ hp)
    have hl' := ih fun p hp => h p (mem_append_right _ (mem_cons_of_mem _ hp))
    exact chainReadsAs_combined hpr.nonempty hl hl' c

end

section
variable {tight : Bool} {ctx : Context} {s : Selector}

lemma render_of_opens (h : s.opens) : s.render {} = renderParts {} s := by
  cases s with
  | nil => rfl
  | cons p s =>
    cases p with
    | combinator c => cases h
    | _ => rfl

lemma parseWith_of_complex (hm : ctx.modules = false) {nested : Nested} {ts : List Token}
    (hc : complex nested ctx ts = .ok s) (hn : ∀ tokens, checkNesting ctx tokens s = .ok s) :
    parseWith nested ctx ts = .ok s := by
  rw [parseWith,hc,hm]
  exact hn ts

lemma readsAs_chain (hm : ctx.modules = false) (ho : s.opens)
    (h : ChainReadsAs tight ctx s) (hn : ∀ tokens, checkNesting ctx tokens s = .ok s) :
    ReadsAs tight ctx s := by
  have hsh (tight : Bool) : s.shapes tight = ofParts tight s := if_pos ho
  refine ⟨?_,?_,?_,?_⟩
  · rw [hsh]
    exact h.stretch
  · rw [hsh]
    obtain ⟨shape,hh,hs⟩ := (Option.any_eq_true _ _).mp h.start
    exact (Option.any_eq_true _ _).mpr ⟨shape,hh,Shape.startsSelector_of_startsCompound hs⟩
  · rw [hsh,render_of_opens ho]
    exact h.pretty
  · intro depth ts hts hd
    rw [hsh] at hts hd
    obtain ⟨depth,rfl⟩ := Nat.exists_eq_succ_of_ne_zero (Nat.ne_zero_of_lt hd)
    refine parseWith_of_complex hm ?_ hn
    have hs := any_head?_of_map hts h.start
    cases ts with
    | nil => cases hs
    | cons t ts =>
      obtain ⟨hnn,hk⟩ := combinator?_of_startsCompound hs
      rw [complex,dropBlank_cons hk]
      dsimp only
      rw [hnn]
      exact h.parsed hts (Nat.le_of_lt_succ hd)

lemma readsAs_relative (hm : ctx.modules = false) {c : Combinator}
    (hct : (ctx.relative || ctx.implicit)) (hc : c ≠ .descendant)
    (h : ChainReadsAs tight ctx s)
    (hn : ∀ tokens, checkNesting ctx tokens (.combinator c :: s) = .ok (.combinator c :: s)) :
    ReadsAs tight ctx (.combinator c :: s) := by
  have hs (tight : Bool) : shapes tight (.combinator c :: s) =
      c.leadShapes (tight && s.head?.any Part.isPseudo) ++ ofParts tight s := by
    cases c with
    | descendant => exact absurd rfl hc
    | _ => rfl
  refine ⟨?_,?_,?_,?_⟩
  · rw [hs]
    refine Combinator.isStretch_lead h.stretch hc fun hcl => ?_
    exact h.colon ((Bool.and_eq_true _ _).mp hcl).2
  · rw [hs]; rfl
  · rw [hs,Bool.false_and,textOf_append,← h.pretty]
    cases c with
    | descendant => exact absurd rfl hc
    | _ => exact String.toList_append
  · intro depth ts hts hdp
    rw [hs] at hts hdp
    obtain ⟨depth,rfl⟩ := Nat.exists_eq_succ_of_ne_zero (Nat.ne_zero_of_lt hdp)
    refine parseWith_of_complex hm ?_ hn
    obtain ⟨lead,vs,rfl,hl,hvs⟩ := map_eq_append_iff.mp hts
    obtain ⟨d,blanks,rfl,hd,hb⟩ := map_eq_cons_iff.mp hl
    have hst := any_head?_of_map hvs h.start
    cases vs with
    | nil => cases hst
    | cons t vs =>
      rw [cons_append,complex,dropBlank_cons (by rw [kind_of_shape hd]; decide)]
      dsimp only
      rw [combinator?_of_symbol hc hd]
      dsimp only
      rw [if_pos hct,dropBlank_append (isBlank_of_gap hb),
        dropBlank_cons (combinator?_of_startsCompound hst).2,h.parsed hvs ?_]
      rw [length_append] at hdp; omega

def Reads (tight : Bool) (ctx : Context) (s : Selector) : Prop :=
  ctx.modules = false → s.anywhere Part.isText = false → ReadsAs tight ctx s

lemma anywhere_of_anywhereInAny {f : Part → Bool} {sels : List Selector}
    (h : anywhere.anywhereInAny f sels = false) : ∀ s ∈ sels, s.anywhere f = false := by
  induction sels with
  | nil =>
    intro s hs
    cases hs
  | cons s sels ih =>
    rw [anywhere.anywhereInAny,or_eq_false_iff,anywhereIn_eq_any] at h
    intro t ht
    rcases mem_cons.mp ht with rfl | ht
    · exact h.1
    · exact ih h.2 t ht

lemma readsAs_part (hm : ctx.modules = false) {p : Part}
    (h : p.Fits (Reads tight) ctx) (htext : p.anywhere isText = false) : p.ReadsAs tight ctx := by
  cases h with
  | universal => exact readsAs_universal
  | element hn => exact readsAs_element hn
  | className hn => exact readsAs_className hn
  | idName hn => exact readsAs_idName hn
  | attr hn hv => exact readsAs_attr hn hv
  | pseudoClass hn hl => exact readsAs_pseudoClass hn hl
  | pseudoElement hn hl => exact readsAs_pseudoElement hn hl
  | pseudoClassOf hn hne hi =>
    have hin := anywhere_of_anywhereInAny (or_eq_false_iff.mp htext).2
    exact readsAs_pseudoClassOf hm hn hne fun s hs => hi s hs hm (hin s hs)
  | nesting => exact readsAs_nesting
  | text hp =>
    cases p with
    | pseudoClassText => cases htext
    | pseudoElementText => cases htext
    | _ => cases hp

lemma reads_of_isParsed (s : Selector) (h : IsParsed (Reads tight) ctx s) : Reads tight ctx s := by
  intro hm htext
  have hpr {s : Selector} (htext : s.anywhere isText = false) :
      ∀ p ∈ s, p.Fits (Reads tight) ctx → p.ReadsAs tight ctx := by
    intro p hp hf
    refine readsAs_part hm hf ?_
    rw [anywhere,any_eq_false] at htext
    exact (not_eq_true _).mp (htext p hp)
  obtain ⟨hcm,hn⟩ := h
  cases hcm with
  | chain hs =>
    exact readsAs_chain hm hs.opens (chainReadsAs_of_isChain hs (hpr htext)) hn
  | relative hct hc hs =>
    rw [anywhere,any_cons,or_eq_false_iff] at htext
    exact readsAs_relative hm hct hc (chainReadsAs_of_isChain hs (hpr htext.2)) hn

end

section
variable {tight : Bool} {ctx : Context} {selectors : List Selector}
  (h : ∀ s ∈ selectors, ReadsAs tight ctx s) (hne : selectors ≠ []) {text : String}
  (htext : text.toList = textOf (shapesAll tight selectors))

include h hne htext

lemma scan_of_readsAs : scanRules text = scan text ∧ (scan text).map shape = shapesAll tight selectors :=
  scan_of_scans (scans_shapesAll h hne).1 rfl (balanced_shapesAll h) htext

lemma parseAll_of_readsAs : parseAll ctx (scanRules text) = .ok selectors := by
  obtain ⟨hr,hs⟩ := scan_of_readsAs h hne htext
  rw [hr,parseAll]
  refine parseList_of_shapesAll h ?_ hne hs
  rw [← hs,length_map]
  exact Nat.lt_succ_self _

end

end Selector
end Css
