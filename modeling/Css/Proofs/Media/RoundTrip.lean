import Css.Proofs.Media.Condition
import Css.Proofs.Media.Derived

/-!
# Printing media queries is undone by parsing

A query is read back from its qualifier, its media type and its condition, and a list of queries from
the queries between its commas.
-/
namespace Css
open List Text Token Media Written

def Qualifier.word : Qualifier → String
  | only => "only"
  | not => "not"

lemma Qualifier.word_mem_keywords (q : Qualifier) : q.word ∈ keywords := by cases q <;> decide

namespace Media
variable {file : SourceFile} {tokens rest post : List Token} {found : Option Qualifier}

lemma qualifier_eq_none (h : ∀ word post, keyword? tokens = some (word,post) →
      word ≠ "only" ∧ (word = "not" → keyword? post = none)) : qualifier tokens = (none,tokens) := by
  unfold qualifier
  split
  · rename_i post heq
    rw [(h "not" post heq).2 rfl]; rfl
  · rename_i post heq
    exact absurd rfl (h "only" post heq).1
  · rfl

lemma qualifier_eq_some {q : Qualifier} (h : keyword? tokens = some (q.word,post))
    (ha : (keyword? post).isSome) : qualifier tokens = (some q,post) := by
  rw [qualifier,h]
  cases q with
  | only => rfl
  | not =>
    change (if (keyword? post).isSome then (some Qualifier.not,post) else _) = _
    rw [ha]; rfl

lemma query_eq_condition {c : MediaCondition} (hfound : qualifier tokens = (found,rest))
    (hkeyword : (keyword? rest = none ∧ found = none) ∨ ∃ post, keyword? rest = some ("not",post))
    (hc : condition file (conditionDeep file tokens.length) (lastSpan tokens) true rest = .ok (c,[])) :
    query file tokens = .ok ⟨found,none,some c⟩ := by
  rw [query,hfound]
  dsimp only
  rcases hkeyword with ⟨hn,rfl⟩ | ⟨post,hnot⟩
  · rw [hn,hc]; rfl
  · rw [hnot,hc]; rfl

section
variable {word : String} (hfound : qualifier tokens = (found,rest))
  (hkeyword : keyword? rest = some (word,post)) (hnot : word ≠ "not")
  (hreserved : reserved.contains word = false)

include hfound hkeyword hnot hreserved

lemma query_eq_type (ha : dropBlank post = []) : query file tokens = .ok ⟨found,some word,none⟩ := by
  rw [query,hfound]
  dsimp only
  rw [hkeyword]
  dsimp only
  rw [beq_false_of_ne hnot,hreserved,if_neg Bool.false_ne_true,if_neg Bool.false_ne_true,ha,
    if_pos isEmpty_nil,pure_bind,ha]
  rfl

lemma query_eq_both {c : MediaCondition} {more : List Token} (ha : keyword? post = some ("and",more))
    (hc : condition file (conditionDeep file tokens.length) (lastSpan tokens) false more = .ok (c,[])) :
    query file tokens = .ok ⟨found,some word,some c⟩ := by
  have haf : (dropBlank post).isEmpty = false := by
    cases hd : dropBlank post with
    | nil =>
      rw [keyword?,hd] at ha; cases ha
    | cons _ _ => rfl
  rw [query,hfound]
  dsimp only
  rw [hkeyword]
  dsimp only
  rw [beq_false_of_ne hnot,hreserved,haf,if_neg Bool.false_ne_true,if_neg Bool.false_ne_true,if_neg Bool.false_ne_true]
  split
  · rename_i heq
    rw [ha] at heq; cases heq
    rw [hc]; rfl
  · rename_i ho
    exact absurd ha (ho more)

end
end Media

namespace MediaQuery

def same (q r : MediaQuery) : Bool :=
  q.qualifier == r.qualifier && q.mediaType == r.mediaType && match q.condition, r.condition with
    | some c, some d => c.same d
    | none, none => true
    | _, _ => false

def isSimple (q : MediaQuery) : Bool := q.condition.all MediaCondition.isSimple

structure ReadsBehind (mediaType : Option String) (condition : Option MediaCondition)
    (l : List Shape) : Prop where
  stretch : IsStretch l
  text : (render false ⟨none,mediaType,condition⟩).toList = textOf l
  parsed : ∀ (file : SourceFile) {tokens before ts : List Token} {found : Option Qualifier},
    (∀ t ∈ before, t.isBlank = true) → ts.map shape = l → l.length ≤ tokens.length →
      Media.qualifier tokens = (found,before ++ ts) → (found.isSome = true → (keyword? ts).isSome = true) →
        ∃ q, query file tokens = .ok q ∧ same ⟨found,mediaType,condition⟩ q = true

structure ReadsAs (q : MediaQuery) (l : List Shape) : Prop where
  stretch : IsStretch l
  text : (q.render false).toList = textOf l
  parsed : ∀ (file : SourceFile) {before ts : List Token}, (∀ t ∈ before, t.isBlank = true) →
    ts.map shape = l → ∃ q', query file (before ++ ts) = .ok q' ∧ q.same q' = true

lemma same_of_condition (found : Option Qualifier) (mediaType : Option String) {c c' : MediaCondition}
    (h : c.same c') :
    same ⟨found,mediaType,some c⟩ ⟨found,mediaType,some c'⟩ := by
  simp [same,h]

lemma readsBehind_condition {c : MediaCondition} {l : List Shape} (hc : c.ReadsAs l) :
    ReadsBehind none (some c) l where
  stretch := hc.stretch
  text := by rw [← hc.text,render,String.empty_append]
  parsed := by
    intro file tokens pre ts found hb hts hl hfound hkeyword
    obtain ⟨c',hc',hsm⟩ := hc.parsed file (lastSpan tokens) hts hl fun _ => rfl
    refine ⟨⟨found,none,some c'⟩,?_,same_of_condition found none hsm⟩
    refine query_eq_condition hfound ?_ ?_
    · rw [keyword?_append hb]
      have hs := hc.keyword hts
      split at hs
      · obtain ⟨rest,hnot,-⟩ := hs
        exact .inr ⟨rest,hnot⟩
      · refine .inl ⟨hs,?_⟩
        rw [hs] at hkeyword
        cases found with
        | none => rfl
        | some q => cases hkeyword rfl
    · rw [condition_append hb]
      exact hc'

section
variable {word : String} (hname : Written.IsLowerName word) (hnot : word ≠ "not")
  (hreserved : reserved.contains word = false)

include hname hnot hreserved

lemma readsBehind_type : ReadsBehind (some word) none [(.ident,identifier word)] where
  stretch := hname.isStretch
  text := by rw [render,String.empty_append,textOf_singleton]
  parsed := by
    intro file tokens pre ts found hb hts hl hfound _
    obtain ⟨t,ts,rfl,ht,hts⟩ := map_eq_cons_iff.mp hts
    cases map_eq_nil_iff.mp hts
    have hkeyword := (keyword?_append hb [t]).trans (keyword?_of_shape hname ht [])
    refine ⟨⟨found,some word,none⟩,query_eq_type hfound hkeyword hnot hreserved rfl,?_⟩
    simp [same]

lemma readsBehind_both {c : MediaCondition} {l : List Shape} (hl : IsStretch l)
    (htx : (MediaCondition.enclose c.isAlternative (c.render false)).toList = textOf l)
    (hp : ∀ (file : SourceFile) {depth : Nat} (last : Span) {ts : List Token}, ts.map shape = l →
      l.length ≤ depth → ∃ c', Media.condition file (conditionDeep file depth) last false ts = .ok (c',[]) ∧ c.same c') :
    ReadsBehind (some word) (some c) ((.ident,identifier word) :: (.whitespace," ") ::
      (.ident,"and") :: (.whitespace," ") :: l) where
  stretch := hname.isStretch.blank ((isStretch_keyword (by decide)).blank hl)
  text := by
    rw [render,String.empty_append,String.toList_append,String.toList_append,htx]
    simp [textOf_cons]
  parsed := by
    intro file tokens pre ts found hb hts hln hfound _
    obtain ⟨t,w,ts,rfl,ht,hw,hts⟩ := exists_pair_of_shapes hts
    obtain ⟨u,w',ts,rfl,hu,hw',hts⟩ := exists_pair_of_shapes hts
    simp only [length_cons] at hln
    have hls : l.length ≤ tokens.length := by omega
    obtain ⟨c',hc',hs⟩ := hp file (lastSpan tokens) hts hls
    have hkeyword := (keyword?_append hb (t :: w :: u :: w' :: ts)).trans (keyword?_of_shape hname ht _)
    have ha : keyword? (w :: u :: w' :: ts) = some ("and",w' :: ts) :=
      (keyword?_append (forall_isBlank hw) _).trans (keyword?_of_keywords (by decide) hu _)
    have hc := (condition_append (forall_isBlank hw') ts file
      (conditionDeep file tokens.length) (lastSpan tokens) false).trans hc'
    exact ⟨⟨found,some word,some c'⟩,query_eq_both hfound hkeyword hnot hreserved ha hc,
      same_of_condition found (some word) hs⟩

end

section
variable {mediaType : Option String} {condition : Option MediaCondition} {l : List Shape}
  (h : ReadsBehind mediaType condition l)

include h

lemma readsAs_unqualified (hs : ∀ {ts : List Token}, ts.map shape = l → ∀ word post, keyword? ts = some (word,post) →
      word ≠ "only" ∧ (word = "not" → keyword? post = none)) :
    ReadsAs ⟨none,mediaType,condition⟩ l where
  stretch := h.stretch
  text := h.text
  parsed := by
    intro file pre ts hb hts
    have hl : l.length ≤ (pre ++ ts).length := by
      rw [← hts,length_map,length_append]; omega
    refine h.parsed file hb hts hl ?_ fun hfound => Bool.noConfusion hfound
    apply qualifier_eq_none
    rw [keyword?_append hb]
    exact hs hts

lemma readsAs_qualified (q : Qualifier) (hs : ∀ {ts : List Token}, ts.map shape = l → (keyword? ts).isSome) :
    ReadsAs ⟨some q,mediaType,condition⟩ ((.ident,q.word) :: (.whitespace," ") :: l) where
  stretch := (isStretch_keyword q.word_mem_keywords).blank h.stretch
  text := by
    have htx := h.text
    have hql : q.text.toList = q.word.toList ++ [' '] := by cases q <;> rfl
    rw [render,String.empty_append] at htx
    rw [render,String.toList_append,hql,htx,textOf_cons,textOf_cons,append_assoc]; rfl
  parsed := by
    intro file pre ts hb hts
    obtain ⟨t,w,ts,rfl,ht,hw,hts⟩ := exists_pair_of_shapes hts
    have hl : l.length ≤ (pre ++ t :: w :: ts).length := by
      rw [← hts,length_map,length_append,length_cons,length_cons]; omega
    have hkeyword := (keyword?_append hb (t :: w :: ts)).trans (keyword?_of_keywords q.word_mem_keywords ht _)
    have ha : (keyword? (w :: ts)).isSome := by
      have hsm := keyword?_append (forall_isBlank hw) ts
      rw [singleton_append] at hsm
      rw [hsm]
      exact hs hts
    exact h.parsed file (forall_isBlank hw) hts hl (qualifier_eq_some hkeyword ha) fun _ => hs hts

end

lemma exists_readsBehind {word : String} (hname : Written.IsLowerName word) (hnot : word ≠ "not")
    (hreserved : reserved.contains word = false) {condition : Option MediaCondition}
    (hs : ∀ c, condition = some c → c.IsSound)
    (h : condition.all MediaCondition.isSimple) :
    ∃ l, ReadsBehind (some word) condition ((.ident,identifier word) :: l) := by
  cases condition with
  | none => exact ⟨_,readsBehind_type hname hnot hreserved⟩
  | some c =>
    cases hor : c.isAlternative with
    | true =>
      obtain ⟨l,hl⟩ := MediaCondition.exists_readsInside c (hs c rfl) h
      have hc : c.isCompound := by cases c <;> first | rfl | cases hor
      have ht := hl.text
      rw [hc,← hor] at ht
      exact ⟨_,readsBehind_both hname hnot hreserved hl.stretch ht
        fun file _ last _ hts hd => hl.alone hts file last false hd⟩
    | false =>
      obtain ⟨l,hl⟩ := MediaCondition.exists_readsAs (hs c rfl) h
      have ht : (MediaCondition.enclose c.isAlternative (c.render false)).toList = textOf l := by
        rw [hor]
        exact hl.text
      refine ⟨_,readsBehind_both hname hnot hreserved hl.stretch ht
        fun file _ last _ hts hd => hl.parsed file last hts hd fun htr => ?_⟩
      rw [hor] at htr; cases htr

lemma exists_readsAs {q : MediaQuery} (hq : q.IsSound) (h : q.isSimple) : ∃ l, q.ReadsAs l := by
  cases hq with
  | @typed found word condition hname hnot hreserved hsn =>
    obtain ⟨l,hl⟩ := exists_readsBehind hname hnot hreserved hsn h
    have hkeyword : ∀ {ts : List Token}, ts.map shape = (.ident,identifier word) :: l →
        ∃ rest, keyword? ts = some (word,rest) := by
      intro ts hts
      obtain ⟨t,ts,rfl,ht,-⟩ := map_eq_cons_iff.mp hts
      exact ⟨ts,keyword?_of_shape hname ht ts⟩
    cases found with
    | none =>
      refine ⟨_,readsAs_unqualified hl fun hts other post ho => ?_⟩
      obtain ⟨rest,hw⟩ := hkeyword hts
      rw [hw] at ho; cases ho
      refine ⟨?_,fun hf => absurd hf hnot⟩
      rintro rfl
      cases hreserved
    | some q =>
      refine ⟨_,readsAs_qualified hl q fun hts => ?_⟩
      obtain ⟨rest,hw⟩ := hkeyword hts
      rw [hw]; rfl
  | untyped hc =>
    obtain ⟨l,hl⟩ := MediaCondition.exists_readsAs hc h
    refine ⟨_,readsAs_unqualified (readsBehind_condition hl) fun hts other post ho => ?_⟩
    have hs := hl.keyword hts
    split at hs
    · obtain ⟨rest,hw,hnn⟩ := hs
      rw [hw] at ho; cases ho
      exact ⟨by decide,fun _ => hnn⟩
    · rw [hs] at ho; cases ho
  | @negated q c hc =>
    obtain ⟨l,hl⟩ := MediaCondition.exists_readsInside c hc h
    have hn := MediaCondition.readsAs_negation hl
    refine ⟨_,readsAs_qualified (readsBehind_condition hn) q fun hts => ?_⟩
    obtain ⟨rest,hw,-⟩ := hn.keyword hts
    rw [hw]; rfl

end MediaQuery

namespace MediaList

def same : MediaList → MediaList → Bool
  | [], [] => true
  | q :: media, r :: media' => q.same r && same media media'
  | _, _ => false

/-- Whether each value of a feature is one identifier, finite number, percentage or dimension, no
feature is named like the word that negates, and nothing is kept as text. -/
def isSimple (media : MediaList) : Bool := media.all MediaQuery.isSimple

def moreShapes (ls : List (List Shape)) : List Shape := ls.flatMap fun l => (.comma,",") :: (.whitespace," ") :: l

lemma moreShapes_cons (l : List Shape) (ls : List (List Shape)) :
    moreShapes (l :: ls) = (.comma,",") :: (.whitespace," ") :: (l ++ moreShapes ls) :=
  rfl

section
variable {q : MediaQuery} {l : List Shape} (hq : q.ReadsAs l) {media : MediaList}
  {ls : List (List Shape)} (h : List.Forall₂ MediaQuery.ReadsAs media ls)

include hq h

lemma toList_render : (render false (q :: media)).toList = textOf (l ++ moreShapes ls) := by
  induction h generalizing q l with
  | nil =>
    rw [moreShapes,flatMap_nil,append_nil]
    exact hq.text
  | @cons r l' media ls hr _ ih =>
    have hc : render false (q :: r :: media) =
        q.render false ++ ", " ++ render false (r :: media) := String.intercalate_cons_cons
    rw [hc,String.toList_append,String.toList_append,hq.text,ih hr,moreShapes_cons]
    simp [textOf_append,textOf_cons]

lemma scans_moreShapes : Scans Lexer.endsName (l ++ moreShapes ls) ∧
    Balanced false ((l ++ moreShapes ls).map Prod.fst) ∧ (l ++ moreShapes ls).getLast?.any (fun s => !s.isBlank) := by
  induction h generalizing q l with
  | nil =>
    rw [moreShapes,flatMap_nil,append_nil]
    exact ⟨hq.stretch.scans,hq.stretch.balanced.inside,hq.stretch.last⟩
  | @cons r l' media ls hr _ ih =>
    obtain ⟨hs,hb,hl⟩ := ih hr
    have hc : Scans anything [(.comma,",")] := scans_char fun _ => rfl
    have ha := hc.blank (fun _ => rfl) hs rfl (any_head?_append hr.stretch.first _)
    refine ⟨hq.stretch.scans.append ha fun _ _ => rfl,?_,?_⟩
    · rw [moreShapes_cons,map_append,map_cons,map_cons]
      exact hq.stretch.balanced.inside.append
        (.flat rfl (fun hf => Bool.noConfusion hf) (.flat rfl (fun hf => Bool.noConfusion hf) hb))
    · have hbl := any_getLast?_append [(.comma,","),(.whitespace," ")] hl
      exact any_getLast?_append l hbl

lemma exists_mapM (file : SourceFile) {pre ts : List Token}
    (hb : ∀ t ∈ pre, t.isBlank) (hts : ts.map shape = l ++ moreShapes ls) :
    ∃ media', (partsFrom 0 (pre ++ ts)).mapM (query file) = .ok media' ∧ same (q :: media) media' := by
  induction h generalizing q l pre ts with
  | nil =>
    rw [moreShapes,flatMap_nil,append_nil] at hts
    obtain ⟨q',hq',hs⟩ := hq.parsed file hb hts
    have hp : partsFrom 0 (pre ++ ts ++ []) = [pre ++ ts ++ []] :=
      partsFrom_append (balanced_append hb hts hq.stretch.balanced) rfl
    rw [append_nil] at hp
    refine ⟨[q'],?_,Bool.and_eq_true_iff.mpr ⟨hs,rfl⟩⟩
    rw [hp,mapM_cons,hq']; rfl
  | @cons r l' media ls hr _ ih =>
    rw [moreShapes_cons] at hts
    obtain ⟨first,ts,rfl,hf,hts⟩ := map_eq_append_iff.mp hts
    obtain ⟨c,w,rest,rfl,hc,hw,hrs⟩ := exists_pair_of_shapes hts
    obtain ⟨q',hq',hs⟩ := hq.parsed file hb hf
    obtain ⟨media',hm',ha⟩ := ih hr (forall_isBlank hw) hrs
    have hcm : partsFrom 0 (c :: w :: rest) = [] :: partsFrom 0 (w :: rest) := by
      rw [partsFrom,kind_of_shape hc]; rfl
    have hp : partsFrom 0 (pre ++ first ++ c :: w :: rest) = (pre ++ first ++ []) :: partsFrom 0 (w :: rest) :=
      partsFrom_append (balanced_append hb hf hq.stretch.balanced) hcm
    refine ⟨q' :: media',?_,Bool.and_eq_true_iff.mpr ⟨hs,ha⟩⟩
    rw [singleton_append] at hm'
    rw [← append_assoc,hp,append_nil,mapM_cons,hq',hm']; rfl

end

lemma exists_allReadAs {media : MediaList} (hm : media.IsSound) (h : media.isSimple) :
    ∃ ls, List.Forall₂ MediaQuery.ReadsAs media ls := by
  induction media with
  | nil => exact ⟨[],.nil⟩
  | cons q media ih =>
    obtain ⟨hq,hm⟩ := forall_mem_cons.mp hm
    obtain ⟨hf,hmr⟩ := Bool.and_eq_true_iff.mp h
    obtain ⟨l,hl⟩ := MediaQuery.exists_readsAs hq hf
    obtain ⟨ls,hls⟩ := ih hm hmr
    exact ⟨l :: ls,.cons hl hls⟩

/-- Printing media queries is undone by parsing. The queries may be any that come from a source without
null characters, also after custom media queries are replaced and comparisons are lowered, as long as
their values are single, no feature is named like the word that negates, and nothing is kept as text.
A zero may lose its sign. -/
theorem exists_parse_render {media : MediaList} (hmedia : media.IsDerived)
    (h : media.isSimple = true) (file : SourceFile) :
    ∃ media', parse file (scanRules (media.render false)) = .ok media' ∧ media.same media' = true := by
  obtain ⟨ls, hls⟩ := exists_allReadAs hmedia.isSound h
  cases hls with
  | nil =>
    have hbalanced : Balanced true (([] : List Shape).map Prod.fst) := .nil
    have htext : (render false []).toList = textOf [] := rfl
    obtain ⟨hrules, hscan⟩ := scan_of_scans (scans_nil anything) rfl hbalanced htext
    refine ⟨[], ?_, rfl⟩
    rw [hrules, map_eq_nil_iff.mp hscan]
    rfl
  | @cons q l media ls hq hls =>
    obtain ⟨hscans, hbalanced, hlast⟩ := scans_moreShapes hq hls
    obtain ⟨hrules, hscan⟩ := scan_of_scans hscans rfl hbalanced (toList_render hq hls)
    have hfirst := any_head?_append hq.stretch.first (moreShapes ls)
    obtain ⟨media', hmedia', hsame⟩ := exists_mapM hq hls file (forall_mem_nil _) hscan
    refine ⟨media', ?_, hsame⟩
    rw [hrules, parse, trimBlank_of_solid hscan hfirst hlast, commaParts, if_neg]
    · exact hmedia'
    · intro hempty
      rw [isEmpty_iff.mp hempty] at hscan
      rw [← hscan] at hfirst
      cases hfirst

/-- An interval that comes from a custom media query and is lowered inside of alternatives, behind a
media type, and a query with two negations. -/
theorem exists_parse_render_lowered : let file := SourceFile.ofText "" ""
    let text := "only screen and (((min-width: 400px) and (max-width: 49.999em)) or (not (hover))), " ++
      "not not (foo = 7)"
    ∃ defined media media',
      parse file (scanRules "(400px <= WIDTH < 50em) or (not (hover))") = .ok defined ∧
      parse file (scanRules "ONLY Screen and (--wide), not not (7 = \\66 oo)") = .ok media ∧
      CustomMedia.expandList (CustomMedia.lookup [("--wide", defined)] []) media = .ok media' ∧
      media'.lowerRanges.isSimple = true ∧ media'.lowerRanges.render false = text ∧
      ∃ media'', parse file (scanRules (media'.lowerRanges.render false)) = .ok media'' ∧
        media'.lowerRanges.same media'' = true := by
  intro file text
  obtain ⟨defined, hdefined, hcheck⟩ := Rule.ok_of_any
    (x := parse file (scanRules "(400px <= WIDTH < 50em) or (not (hover))"))
    (p := fun defined =>
      (parse file (scanRules "ONLY Screen and (--wide), not not (7 = \\66 oo)")).toOption.any fun media =>
        (CustomMedia.expandList (CustomMedia.lookup [("--wide", defined)] []) media).toOption.any
          fun media' => media'.lowerRanges.isSimple && media'.lowerRanges.render false == text)
    (by decide +kernel)
  obtain ⟨media, hmedia, hcheck⟩ := Rule.ok_of_any hcheck
  obtain ⟨media', hmedia', hcheck⟩ := Rule.ok_of_any hcheck
  obtain ⟨hsimple, htext⟩ := Bool.and_eq_true_iff.mp hcheck
  have hparsed : IsDerived defined := .parsed (by decide +kernel) (List.Sublist.refl _) hdefined
  have hderived : IsDerived media'.lowerRanges :=
    .lowered (.substituted (forall_mem_singleton.mpr hparsed)
      (.parsed (by decide +kernel) (List.Sublist.refl _) hmedia) hmedia')
  exact ⟨defined, media, media', hdefined, hmedia, hmedia', hsimple, eq_of_beq htext,
    exists_parse_render hderived hsimple file⟩

end MediaList
end Css
