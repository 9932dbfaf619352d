import Css.Proofs.Nesting.Enclosing
import Css.Proofs.Selector.InPlace
import Mathlib.Data.List.DropRight

/-!
# How the parser arranges selectors

Each selector of a parsed sheet is arranged from compounds and combinators as it must be, up to the
exceptions that switches of scope make.
-/
namespace Css
open List Token Bool Css.Part Cursor
namespace Selector

/-! ## Stretches of tokens -/

lemma isInfix_trimBlank (ts : List Token) : trimBlank ts <:+: ts :=
  (isPrefix_trimBlank ts).isInfix.trans (dropWhile_suffix _).isInfix

lemma endsSimple_of_splitParens {depth : Nat} {ts inner post : List Token}
    (h : splitParens depth ts = some (inner,post)) :
    ∃ t, endsSimple t ∧ ts = inner ++ t :: post := by
  obtain ⟨t,ht | ht,rfl⟩ := eq_of_splitParens h
  · exact ⟨t,by rw [endsSimple,ht]; rfl,rfl⟩
  · exact ⟨t,by rw [endsSimple,ht]; rfl,rfl⟩

/-! ## Simple selectors -/

section
variable (modules : Bool) (source : List Token)

/-- A parser for the selectors inside of a selector, if it reads them from stretches of the source. -/
def Nested.Reads (nested : Nested) : Prop := ∀ ctx ts s, ctx.modules = modules → ts <:+: source → nested ctx ts = .ok s →
    IsArranged modules source (ctx.relative || ctx.implicit) s ∧
      (ctx.relative = false → ctx.implicit = false → opensWithType (dropBlank ts) = false →
        ∀ p ∈ s.inPlace.head?, p.isType = false)

structure IsTaken (isFirst : Bool) (ts : List Token) (ps : Selector) (rest : List Token) :
    Prop where
  read : IsArranged modules source false ps
  stays : modules = true → List.IsChain Stays ps
  type : isFirst = false → KeepsTypes modules source → ∀ p ∈ ps.inPlace.head?, p.isType = false
  switch : modules = true → ∀ p ∈ ps.getLast?, isSwitch p = true →
    ∃ t u, t :: u :: rest <:+ ts ∧ t.kind = .colon ∧ u.kind = .ident ∧ isScopeName u = true
  ends : ∃ t, t :: rest <:+ ts ∧ endsSimple t = true
  plain : opensWithType ts = false →
    ∃ p, ps.head? = some p ∧ p.isType = false ∧ isSwitch p = false ∧ p.isGlobal = false

/-- Compounds and the combinators between them, before switches of scope are carried out. -/
structure IsLinked (ts : List Token) (leads : Bool) (s : Selector) : Prop where
  read : IsArranged modules source leads s
  stays : modules = true → KeepsCombinators modules source → List.IsChain Stays s
  plain : leads = false → opensWithType ts = false →
    ∃ p, s.head? = some p ∧ p.isType = false ∧ isSwitch p = false ∧ p.isGlobal = false

variable {modules source} {isFirst : Bool} {ts rest : List Token} {s : Selector} {p : Part}

lemma isTaken_singleton (hp : p.isCombinator = false) (hg : p.isGlobal = false)
    (ha : ∀ name sels, p = .pseudoClassOf name sels → ∀ t ∈ sels, IsArranged modules source (name == "has") t)
    (ht : p.isType → isFirst ∧ opensWithType ts)
    (hs : isSwitch p → opensWithType ts ∧ ∃ t u, t :: u :: rest <:+ ts ∧ t.kind = .colon ∧ u.kind = .ident ∧ isScopeName u)
    (he : ∃ t, t :: rest <:+ ts ∧ endsSimple t) :
    IsTaken modules source isFirst ts [p] rest := by
  refine ⟨isArranged_singleton hp hg ha,fun _ => isChain_singleton p,?_,?_,he,?_⟩
  · rintro rfl _ q hq
    rw [inPlace_singleton,inPlace_of_not_global hg] at hq; cases hq
    rw [eq_false_iff]
    exact fun h => false_ne_true (ht h).1
  · intro _ q hq
    cases hq
    exact fun h => (hs h).2
  · intro hpl
    refine ⟨p,rfl,?_,?_,hg⟩
    · rw [eq_false_iff]
      exact fun h => false_ne_true (hpl.symm.trans (ht h).2)
    · rw [eq_false_iff]
      exact fun h => false_ne_true (hpl.symm.trans (hs h).1)

/-- Whether a part is a simple selector without arguments that are selectors, and neither a type or
universal selector nor a pseudo-class. -/
def isBare : Part → Bool
  | .className _ | .idName _ | .attr .. | .nesting => true
  | .pseudoClassText .. | .pseudoElement _ | .pseudoElementText .. => true
  | _ => false

lemma isTaken_bare (h : isBare p) (he : ∃ t, t :: rest <:+ ts ∧ endsSimple t) :
    IsTaken modules source isFirst ts [p] rest := by
  have hp : p.isCombinator = false ∧ p.isGlobal = false ∧ p.isType = false ∧ isSwitch p = false ∧
      ∀ name selectors, p ≠ .pseudoClassOf name selectors := by
    cases p <;> simp [isBare] at h <;> simp [isCombinator,isGlobal,isType,isSwitch,scopeSwitch?]
  obtain ⟨hc,hg,ht,hs,ha⟩ := hp
  apply isTaken_singleton hc hg
  · intro name selectors heq
    exact absurd heq (ha name selectors)
  · intro h
    exact absurd (ht.symm.trans h) false_ne_true
  · intro h
    exact absurd (hs.symm.trans h) false_ne_true
  · exact he

lemma isTaken_attribute {last : Span} {t : Token} (h : attributeTest last ts = .ok (p,rest)) :
    IsTaken modules source isFirst (t :: ts) [p] rest := by
  obtain ⟨v,post,u,ha,-,hr,hu,hp⟩ := attributeTest_cases h
  have hrt := hr.trans ((suffix_cons v post).trans ha)
  have he : ∃ u, u :: rest <:+ t :: ts ∧ endsSimple u := ⟨u,hrt.trans (suffix_cons t ts),by rw [endsSimple,hu]; rfl⟩
  obtain rfl | ⟨_,_,_,_,_,-,-,rfl⟩ := hp
  · exact isTaken_bare rfl he
  · exact isTaken_bare rfl he

lemma isScopeName_of_isSwitch {t : Token} (h : isSwitch (.pseudoClass t.keyword)) : isScopeName t := by
  rw [isSwitch,scopeSwitch?] at h
  rw [isScopeName,or_eq_true_iff]
  split at h
  · rename_i hg
    exact .inl hg
  · split at h
    · rename_i hl
      exact .inr hl
    · cases h

lemma stays_combinator (c : Combinator) (q : Part) : Stays (.combinator c) q := by
  intro h
  cases h

lemma isChain_stays (h : ∀ p ∈ s, isSwitch p = false) : List.IsChain Stays s := by
  induction s with
  | nil => exact .nil
  | cons p s ih =>
    obtain ⟨hp,hs⟩ := forall_mem_cons.mp h
    refine isChain_cons.mpr ⟨fun q _ hsw => ?_,ih hs⟩
    cases hp.symm.trans hsw

section
variable {nested : Nested} {ctx : Context} {last : Span} (hn : nested.Reads modules source)
  (hopens : nested.Opens) (hctx : ctx.modules = modules)

include hn hctx

lemma isArranged_of_parseList {relative : Bool} {sels : List Selector} (ht : ts <:+: source)
    (h : parseList nested (ctx.arguments relative) ts = .ok sels) :
    ∀ s ∈ sels, IsArranged modules source relative s := by
  unfold parseList at h
  dsimp only at h
  split at h
  · cases h
  · intro s hs
    obtain ⟨part,hpr,hs⟩ := (mem_of_mapM_ok h).2 s hs
    split at hs
    · cases hs
    · obtain ⟨p,hp,rfl⟩ := mem_map.mp hpr
      have hi := (isInfix_trimBlank p).trans ((infix_of_mem_commaParts hp).trans ht)
      have hr := (hn (ctx.arguments relative) _ s hctx hi hs).1
      rwa [show ((ctx.arguments relative).relative || (ctx.arguments relative).implicit) = relative from
        or_false relative] at hr

variable {t : Token}

lemma isArranged_of_scoped {u v : Token} {args post : List Token}
    (hu : u.kind = .colon) (hv : v.kind = .function) (hnm : isScopeName v)
    (htk : u :: v :: (args ++ t :: post) <:+: source)
    (hb : isFirst = false → ∃ pre, pre :: u :: v :: (args ++ t :: post) <:+: source ∧ endsSimple pre)
    (hm : modules) (h : nested (ctx.arguments false) (trimBlank args) = .ok s) :
    IsArranged modules source false s ∧
      (isFirst = false → KeepsTypes modules source → ∀ p ∈ s.inPlace.head?, p.isType = false) := by
  have ha : trimBlank args <:+: source := by
    refine (isInfix_trimBlank args).trans (List.IsInfix.trans ?_ htk)
    exact ⟨[u,v],t :: post,by simp⟩
  obtain ⟨hr,hty⟩ := hn (ctx.arguments false) _ s hctx ha h
  refine ⟨hr,fun hfr hk => hty rfl rfl ?_⟩
  obtain ⟨pre,hi,he⟩ := hb hfr
  have hf := eq_false_of_infix misplacesType_append (hk hm) hi
  rw [misplacesType,he,hu,hv,hnm] at hf
  rw [eq_false_iff]
  intro hopens
  obtain ⟨more,hmr⟩ := isPrefix_trimBlank args
  have ht := opensWithType_append hopens more
  rw [hmr,dropBlank,dropBlank,dropWhile_idempotent] at ht
  have hal := opensWithType_append ht (t :: post)
  rw [hal] at hf; cases hf

include hopens

variable {ps : List Part}

lemma isTaken_pseudoFunction {u v : Token} {args post : List Token}
    (hu : u.kind = .colon) (hv : v.kind = .function) (ht : endsSimple t)
    (htk : u :: v :: (args ++ t :: post) <:+: source)
    (hb : isFirst = false → ∃ pre, pre :: u :: v :: (args ++ t :: post) <:+: source ∧ endsSimple pre)
    (h : pseudoFunction nested ctx v.keyword args = .ok ps) :
    IsTaken modules source isFirst (u :: v :: (args ++ t :: post)) ps post := by
  have ha : t :: post <:+ u :: v :: (args ++ t :: post) := ⟨u :: v :: args,rfl⟩
  have hpl (hnm : isScopeName v) : opensWithType (u :: v :: (args ++ t :: post)) := by
    simp [opensWithType,hu,hv,hnm]
  rw [pseudoFunction,hctx] at h
  split at h
  · rename_i hg
    obtain ⟨hm,hnm⟩ := Bool.and_eq_true_iff.mp hg
    have hnm : isScopeName v := Bool.or_eq_true_iff.mpr (.inl hnm)
    obtain ⟨s,hs,h⟩ := ok_of_bind_ok h
    cases h
    obtain ⟨hr,hty⟩ := isArranged_of_scoped hn hctx hu hv hnm htk hb hm hs
    refine ⟨isArranged_global hr,fun _ => isChain_singleton _,?_,?_,⟨t,ha,ht⟩,?_⟩
    · rw [inPlace_singleton]
      exact hty
    · intro _ p hp hsw
      cases hp
      cases hsw
    · intro hf
      cases hf.symm.trans (hpl hnm)
  · split at h
    · rename_i hl
      obtain ⟨hm,hnm⟩ := Bool.and_eq_true_iff.mp hl
      have hnm : isScopeName v := Bool.or_eq_true_iff.mpr (.inr hnm)
      obtain ⟨hr,hty⟩ := isArranged_of_scoped hn hctx hu hv hnm htk hb hm h
      have hsw := (hopens _ _ _ h rfl rfl).2 (hctx.trans hm)
      refine ⟨hr,fun _ => isChain_stays hsw,hty,?_,⟨t,ha,ht⟩,?_⟩
      · intro _ p hp hp'
        cases (hsw p (mem_of_mem_getLast? hp)).symm.trans hp'
      · intro hf
        cases hf.symm.trans (hpl hnm)
    · split at h
      · obtain ⟨sels,hsl,h⟩ := ok_of_bind_ok h
        cases h
        have har : args <:+: source := List.IsInfix.trans ⟨[u,v],t :: post,by simp⟩ htk
        have hr := isArranged_of_parseList hn hctx har hsl
        refine isTaken_singleton rfl rfl ?_ Bool.noConfusion Bool.noConfusion ⟨t,ha,ht⟩
        rintro name sels' heq s hs
        cases heq
        exact hr s hs
      · cases h
        exact isTaken_bare rfl ⟨t,ha,ht⟩

lemma isTaken_simple? (ht : ts <:+: source) (hb : isFirst = false → ∃ pre, pre :: ts <:+: source ∧ endsSimple pre)
    (h : simple? nested ctx last isFirst ts = .ok (some (ps,rest))) :
    IsTaken modules source isFirst ts ps rest := by
  cases isSimple_of_simple? h with
  | @element t _ hk hf =>
    refine isTaken_singleton rfl rfl (fun _ _ heq => by cases heq) (fun _ => ⟨hf,?_⟩)
      Bool.noConfusion ⟨t,suffix_rfl,by rw [endsSimple,hk]; rfl⟩
    rw [opensWithType,hk]; rfl
  | @idName t _ hk => exact isTaken_bare rfl ⟨t,suffix_rfl,by rw [endsSimple,hk]; rfl⟩
  | attr ha => exact isTaken_attribute ha
  | @universal t _ hd hf =>
    refine isTaken_singleton rfl rfl (fun _ _ heq => by cases heq) (fun _ => ⟨hf,?_⟩)
      Bool.noConfusion ⟨t,suffix_rfl,by simp [endsSimple,hd]⟩
    simp [opensWithType,hd]
  | @nesting t _ hd => exact isTaken_bare rfl ⟨t,suffix_rfl,by simp [endsSimple,hd]⟩
  | @className t u _ hk =>
    exact isTaken_bare rfl ⟨u,suffix_cons t _,by rw [endsSimple,hk]; rfl⟩
  | @pseudoElement t c u _ hk =>
    exact isTaken_bare rfl ⟨u,⟨[t,c],rfl⟩,by rw [endsSimple,hk]; rfl⟩
  | @pseudoElementText t c u _ args _ hs =>
    obtain ⟨v,hv,rfl⟩ := endsSimple_of_splitParens hs
    exact isTaken_bare rfl ⟨v,⟨t :: c :: u :: args,rfl⟩,hv⟩
  | @pseudoClass t u _ hc hk =>
    refine isTaken_singleton rfl rfl (fun _ _ heq => by cases heq) Bool.noConfusion ?_
      ⟨u,suffix_cons t _,by rw [endsSimple,hk]; rfl⟩
    intro hsw
    have hnm := isScopeName_of_isSwitch hsw
    exact ⟨by simp [opensWithType,hc,hk,hnm],t,u,suffix_rfl,hc,hk,hnm⟩
  | pseudoFunction hc hk hs hp =>
    obtain ⟨v,hv,rfl⟩ := endsSimple_of_splitParens hs
    exact isTaken_pseudoFunction hn hopens hctx hc hk hv ht hb hp

end

/-! ## Compounds -/

lemma IsTaken.append {tokens' : List Token} {more : Selector} (hs : IsTaken modules source isFirst ts s tokens')
    (hm : IsTaken modules source false tokens' more rest) :
    IsTaken modules source isFirst ts (s ++ more) rest := by
  have hopens := hs.read.shape.opens rfl
  have ho := hm.read.shape.opens rfl
  have hne : more ≠ [] := by
    rintro rfl
    cases ho
  have hsf : tokens' <:+ ts := by
    obtain ⟨t,ht,-⟩ := hs.ends
    exact (suffix_cons t tokens').trans ht
  refine ⟨hs.read.append hm.read (hm.type rfl),fun hmd => ?_,fun hf hkp => ?_,fun hmd p hp hsw => ?_,?_,fun hpl => ?_⟩
  · refine (hs.stays hmd).append (hm.stays hmd) fun p _ q hq _ c hc => ?_
    have hnt := not_isCombinator_of_opens ho hq
    rw [hc] at hnt; cases hnt
  · have hne : s.inPlace ≠ [] := by
      intro hnl
      rw [hnl] at hopens; cases hopens
    rw [inPlace_append,head?_append_of_ne_nil _ hne]
    exact hs.type hf hkp
  · rw [getLast?_append_of_ne_nil _ hne] at hp
    obtain ⟨t,u,ha,hk⟩ := hm.switch hmd p hp hsw
    exact ⟨t,u,ha.trans hsf,hk⟩
  · obtain ⟨t,ht,he⟩ := hm.ends
    exact ⟨t,ht.trans hsf,he⟩
  · obtain ⟨p,hp,hk⟩ := hs.plain hpl
    exact ⟨p,by rw [head?_append,hp]; rfl,hk⟩

variable {nested : Nested} {ctx : Context} {last : Span} (hn : nested.Reads modules source)
  (hopens : nested.Opens) (hctx : ctx.modules = modules)

include hn hopens hctx

lemma isTaken_of_compound {ps : List Part} (htk : ts <:+: source)
    (hb : isFirst = false → ∃ pre, pre :: ts <:+: source ∧ endsSimple pre)
    (h : compound nested ctx last isFirst ts = .ok (ps,rest)) :
    ps = [] ∧ rest = ts ∨ IsTaken modules source isFirst ts ps rest := by
  fun_induction compound nested ctx last isFirst ts generalizing ps rest with
  | case1 => cases h
  | case2 =>
    cases h
    exact .inl ⟨rfl,rfl⟩
  | case3 => cases h
  | case4 isFirst ts first post hs hlt more rest' hr ih =>
    cases h
    have hf := isTaken_simple? hn hopens hctx htk hb hs
    obtain ⟨t,ht,he⟩ := hf.ends
    have hi : t :: post <:+: source := ht.isInfix.trans htk
    have ha : post <:+: source := (suffix_cons t post).isInfix.trans hi
    refine .inr ?_
    rcases ih ha (fun _ => ⟨t,hi,he⟩) hr with ⟨rfl,rfl⟩ | hm
    · rwa [append_nil]
    · exact hf.append hm

omit hn hopens hctx in
lemma IsTaken.combined {tokens' : List Token} {c : Combinator} {more : Selector}
    (hs : IsTaken modules source true ts s rest) (hmr : IsLinked modules source tokens' false more)
    (hc : modules → KeepsCombinators modules source → ∀ p ∈ s.getLast?, isSwitch p → c = .descendant) :
    IsLinked modules source ts false (s ++ .combinator c :: more) := by
  refine ⟨hs.read.combined c hmr.read,fun hm hk => ?_,fun _ hpl => ?_⟩
  · have hl : List.IsChain Stays (.combinator c :: more) :=
      isChain_cons.mpr ⟨fun q _ => stays_combinator c q,hmr.stays hm hk⟩
    refine (hs.stays hm).append hl fun p hp q hq hsw d hd => ?_
    cases hq
    cases hd
    exact hc hm hk p hp hsw
  · obtain ⟨p,hp,hkn⟩ := hs.plain hpl
    exact ⟨p,by rw [head?_append,hp]; rfl,hkn⟩

lemma isLinked_of_compounds (hto : ts <:+: source)
    (h : compounds nested ctx last ts = .ok s) : IsLinked modules source ts false s := by
  have hcm {ts rest : List Token} {part : Part} {ps : List Part} (hto : ts <:+: source)
      (h : compound nested ctx last true ts = .ok (part :: ps,rest)) :
      IsTaken modules source true ts (part :: ps) rest ∧ rest <:+ ts := by
    rcases isTaken_of_compound hn hopens hctx hto Bool.noConfusion h with ⟨hnl,-⟩ | htk
    · cases hnl
    · obtain ⟨t,ht,-⟩ := htk.ends
      exact ⟨htk,(suffix_cons t rest).trans ht⟩
  refine compounds_induction (motive := fun ts s => ts <:+: source → IsLinked modules source ts false s) ?_ ?_ h hto
  · intro ts rest part ps hpr hto
    obtain ⟨htk,-⟩ := hcm hto hpr
    exact ⟨htk.read,fun hm _ => htk.stays hm,fun _ => htk.plain⟩
  · intro ts rest us part ps c s hpr hus hcb ih hto
    obtain ⟨htk,hr⟩ := hcm hto hpr
    refine htk.combined (ih ((hus.trans hr).isInfix.trans hto)) ?_
    intro hm hk p hp hsw
    rcases hcb with hcb | ⟨t,post,hd,hc⟩
    · exact hcb
    · obtain ⟨u,v,huv,hu,hv,hnm⟩ := htk.switch hm p hp hsw
      have hf := eq_false_of_infix doublesCombinator_append (hk hm) (huv.isInfix.trans hto)
      simp [doublesCombinator,hu,hv,hnm,hd,hc] at hf

lemma isLinked_of_complex (ht : ts <:+: source) (h : complex nested ctx ts = .ok s) :
    IsLinked modules source (dropBlank ts) (ctx.relative || ctx.implicit) s := by
  have hb {rest : List Token} : dropBlank rest <:+ rest := dropWhile_suffix _
  have hw {ts : List Token} (h : IsLinked modules source ts false s) :
      IsLinked modules source ts (ctx.relative || ctx.implicit) s :=
    ⟨h.read.weaken,h.stays,fun _ => h.plain rfl⟩
  unfold complex at h
  dsimp only at h
  cases hd : dropBlank ts with
  | nil =>
    rw [hd] at h
    exact hw (isLinked_of_compounds hn hopens hctx nil_infix h)
  | cons t rest =>
    have hr : t :: rest <:+: source := (hd ▸ hb : t :: rest <:+ ts).isInfix.trans ht
    rw [hd] at h
    dsimp only at h
    split at h
    · exact hw (isLinked_of_compounds hn hopens hctx hr h)
    · rename_i c hc
      split at h
      · rename_i hld
        split at h
        · cases h
        · rename_i ps hp
          cases h
          have hi := (hb.trans (suffix_cons t rest)).isInfix.trans hr
          have hl := isLinked_of_compounds hn hopens hctx hi hp
          rw [hld]
          refine ⟨hl.read.leading c,fun hm hk => ?_,Bool.noConfusion⟩
          exact isChain_cons.mpr ⟨fun q _ => stays_combinator c q,hl.stays hm hk⟩
      · cases h

end

/-! ## Switches of scope and references to the enclosing rule -/

section
variable {modules : Bool} {source ts : List Token} {leads : Bool} {ctx : Context} {raw s : Selector}

lemma isArranged_of_resolveScopes {span : Span} (hmd : modules)
    (hr : IsLinked modules source ts leads raw) (hopens : leads = false → s.opens)
    (h : resolveScopes ctx span false [] raw = .ok s) : IsArranged modules source leads s := by
  have hrs := resolves_of_resolveScopes h
  have hm : ∀ q ∈ s, ∃ p ∈ raw, ∃ isGlobal, q = inScope isGlobal p := fun q hq =>
    (hrs.mem q hq).resolve_left not_mem_nil
  have hs : ∀ p ∈ s, p.IsSolid := by
    intro q hq
    obtain ⟨p,hp,isGlobal,rfl⟩ := hm q hq
    exact isSolid_inScope (hr.read.solid p hp) isGlobal
  have hc : raw.closes := by
    obtain ⟨x,hx,hnt⟩ := closes_iff.mp hr.read.shape.closes
    obtain ⟨p,hp,hpx⟩ := exists_getLast?_inPlace hr.read.solid hx
    exact closes_iff.mpr ⟨p,hp,hpx.trans hnt⟩
  have hnl : raw = [] → closes [].reverse := by
    rintro rfl
    cases hc
  refine ⟨⟨fun hl => ?_,?_,fun hk => ?_,fun hk => ?_⟩,?_,hs⟩
  · exact opens_inPlace hs (hopens hl)
  · exact closes_inPlace hs (hrs.closes hnl fun _ => hc)
  · exact hrs.isChain isRegular_apart (.inr (hr.stays hmd hk)) (forall_mem_nil _) hr.read.solid (hr.read.shape.apart hk)
  · refine hrs.isChain isRegular_typeBehind (.inl ?_) (forall_mem_nil _) hr.read.solid (hr.read.shape.types hk)
    exact fun _ _ => Bool.noConfusion
  · intro name sels hp
    obtain ⟨q,hq,hqp⟩ := mem_inPlace.mp hp
    obtain ⟨p,hp,isGlobal,rfl⟩ := hm q hq
    rw [inPlace_inScope] at hqp
    exact hr.read.arguments name sels (mem_inPlace.mpr ⟨p,hp,hqp⟩)

lemma isType_of_resolveScopes {span : Span} {p : Part} (hp : raw.head? = some p)
    (hnt : p.isCombinator = false) (ht : p.isType = false) (hsw : isSwitch p = false)
    (hg : p.isGlobal = false) (h : resolveScopes ctx span false [] raw = .ok s) :
    ∀ q ∈ s.inPlace.head?, q.isType = false := by
  have hnn : scopeSwitch? p = none := Option.isNone_iff_eq_none.mp (Option.isSome_eq_false_iff.mp hsw)
  have hf : inScope false p ≠ .combinator .descendant := by
    intro heq
    have hs : (inScope false p).isCombinator = false := (isCombinator_inScope p).trans hnt
    rw [heq] at hs; cases hs
  cases raw with
  | nil => cases hp
  | cons r rest =>
    cases hp
    rw [resolveScopes,hnn] at h
    have hh := (resolves_of_resolveScopes h).head? hf rfl
    cases s with
    | nil => cases hh
    | cons q s =>
      cases hh
      intro q hq
      rw [inPlace_cons,inPlace_inScope,inPlace_of_not_global hg] at hq; cases hq
      exact ht

lemma isArranged_relativeToParent (h : IsArranged modules source leads s) :
    IsArranged modules source true (relativeToParent s) := by
  have hpr : IsArranged modules source false [.nesting] := isArranged_singleton rfl rfl fun _ _ heq => by cases heq
  unfold relativeToParent
  split
  · refine (hpr.append h fun _ p hp => ?_).weaken
    cases hp
    rfl
  · rename_i hh
    have hopens : s.inPlace.opens := by
      cases s with
      | nil => cases h.shape.closes
      | cons p s =>
        refine opens_inPlace h.solid ?_
        cases p with
        | combinator c => exact absurd rfl (hh c s)
        | _ => rfl
    have hr : IsArranged modules source false s :=
      ⟨⟨fun _ => hopens,h.shape.closes,h.shape.apart,h.shape.types⟩,h.arguments,h.solid⟩
    exact (hpr.combined .descendant hr).weaken

lemma isArranged_of_checkNesting (h : IsArranged modules source (ctx.relative || ctx.implicit) raw)
    (hs : checkNesting ctx ts raw = .ok s) :
    IsArranged modules source (ctx.relative || ctx.implicit) s := by
  rcases checkNesting_eq_ok_iff.mp hs with ⟨-,-,rfl⟩ | ⟨-,-,rfl⟩
  · exact h
  · cases hi : ctx.implicit with
    | true =>
      rw [Bool.or_true]
      exact isArranged_relativeToParent h
    | false => rwa [hi] at h

lemma reads_parseWith {nested : Nested} (hn : nested.Reads modules source)
    (hopens : nested.Opens) (hopens' : Nested.Opens (parseWith nested)) :
    Nested.Reads modules source (parseWith nested) := by
  intro ctx ts s hctx htk hpr
  obtain ⟨raw,hc,h⟩ := ok_of_bind_ok hpr
  have hln := isLinked_of_complex hn hopens hctx htk hc
  have hopens (hl : (ctx.relative || ctx.implicit) = false) : s.opens := by
    rw [or_eq_false_iff] at hl
    exact (hopens' ctx ts s hpr hl.1 hl.2).1
  split at h
  · rename_i hm
    obtain ⟨t,hs,h⟩ := ok_of_bind_ok h
    refine ⟨isArranged_of_checkNesting ?_ h,fun hr hi hpl => ?_⟩
    · refine isArranged_of_resolveScopes (hctx.symm.trans hm) hln (fun hl => ?_) hs
      rw [← eq_of_checkNesting (or_eq_false_iff.mp hl).2 h]
      exact hopens hl
    · have hl := or_eq_false_iff.mpr ⟨hr,hi⟩
      obtain ⟨p,hp,ht,hsw,hg⟩ := hln.plain hl hpl
      have hnt := not_isCombinator_of_opens (hln.read.shape.opens hl) hp
      rw [eq_of_checkNesting hi h]
      exact isType_of_resolveScopes hp hnt ht hsw hg hs
  · refine ⟨isArranged_of_checkNesting hln.read h,fun hr hi hpl => ?_⟩
    obtain ⟨p,hp,ht,-,hg⟩ := hln.plain (or_eq_false_iff.mpr ⟨hr,hi⟩) hpl
    rw [eq_of_checkNesting hi h]
    cases raw with
    | nil => cases hp
    | cons r rest =>
      cases hp
      intro q hq
      rw [inPlace_cons,inPlace_of_not_global hg] at hq; cases hq
      exact ht

lemma reads_parseDeep (modules : Bool) (src : List Token) (depth : Nat) : Nested.Reads modules src (parseDeep depth) := by
  induction depth with
  | zero =>
    intro ctx ts s _ _ h
    cases h
  | succ depth ih => exact reads_parseWith ih (opens_parseDeep depth) (opens_parseDeep (depth + 1))

def AreReadFrom (modules : Bool) (ts : List Token) (selectors : List Selector) : Prop :=
  ∃ ctx : Context, ctx.modules = modules ∧ parseAll ctx ts = .ok selectors

lemma isArranged_of_parseAll {sels : List Selector} (h : parseAll ctx ts = .ok sels)
    (hs : s ∈ sels) : IsArranged ctx.modules ts (ctx.relative || ctx.implicit) s := by
  simp only [parseAll,parseList] at h
  split at h
  · cases h
  · obtain ⟨part,hpr,hs⟩ := (mem_of_mapM_ok h).2 s hs
    split at hs
    · cases hs
    · obtain ⟨p,hp,rfl⟩ := mem_map.mp hpr
      have hi := (isInfix_trimBlank p).trans (infix_of_mem_commaParts hp)
      exact (reads_parseDeep ctx.modules ts _ ctx _ s rfl hi hs).1

lemma Contains.change {leads' : Bool} {t : Selector} (h : Contains leads s leads' t)
    (other : Bool) : ∃ other', Contains other s other' t := by
  cases h with
  | self => exact ⟨other,.self⟩
  | argument hp hu ht => exact ⟨leads',.argument hp hu ht⟩

end
end Selector

/-! ## Rules -/

/-- The selectors of a rule are read from tokens, and only inside of a style rule where they may start
with a combinator. -/
def Checks.read (modules : Bool) : Checks where
  block scope b := ∃ (ctx : Selector.Context) (ts : List Token), ctx.modules = modules ∧
    ((scope == .style) = false → (ctx.relative || ctx.implicit) = false) ∧ Selector.parseAll ctx ts = .ok b.selectors

lemma Selector.parseAll_nesting (modules : Bool) :
    parseAll { nesting := true, modules } [⟨.delim,"&",.none⟩] = .ok [[.nesting]] := by
  obtain ⟨sels,hp,hc⟩ := Rule.ok_of_any
    (x := parseAll { nesting := true, modules } [⟨.delim,"&",.none⟩]) (p := (· == [[.nesting]]))
    (by cases modules <;> decide +kernel)
  rw [hp,eq_of_beq hc]

lemma Checks.established_read (d : Dialect) (all : List Token) : (Checks.read d.modules).Established d all where
  style _ ts _ h _ _ _ _ := ⟨_,ts,rfl,id,h⟩
  nest ts _ h _ _ _ _ := ⟨_,ts,rfl,fun _ => rfl,h⟩
  enclosing _ _ _ _ := ⟨_,_,rfl,fun _ => rfl,Selector.parseAll_nesting d.modules⟩
  group _ _ := trivial
  statement _ _ _ := trivial

lemma Rule.read_of_occurs {modules : Bool} {rs : List Rule}
    (h : Rule.Holds.AllHold (Checks.read modules) .top rs) {inStyle : Bool} {r : Rule}
    (hr : Occurs rs inStyle r) (hne : r.selectors ≠ []) :
    ∃ (ctx : Selector.Context) (ts : List Token), ctx.modules = modules ∧
      (inStyle = false → (ctx.relative || ctx.implicit) = false) ∧ Selector.parseAll ctx ts = .ok r.selectors := by
  obtain ⟨scope,rfl,hh⟩ := holds_of_occurs h hr
  cases r with
  | style b rs => exact hh.1
  | nest b rs => exact hh.2.1
  | group | statement => exact absurd rfl hne

/-- The selectors of each rule of a parsed sheet have their shape, and so do all selectors in them: they
end with something other than a combinator, and start with one only as arguments of `has` or inside of a
style rule. Each is made of compounds with one combinator between each two, if no switch of scope among
its tokens leaves two; and a type or universal selector is the first of its compound, if none among the
tokens is put behind something as the start of a selector with a scope of its own. -/
theorem StyleSheet.parse_hasShape {source : String} {options : ParseOptions} {sheet : StyleSheet}
    (h : StyleSheet.parse source options = .ok sheet) {inStyle : Bool} {r : Rule}
    (hr : Rule.Occurs sheet.rules inStyle r) (hne : r.selectors ≠ []) :
    (∃ tokens, Selector.AreReadFrom options.modules.isSome tokens r.selectors) ∧
      ∀ tokens, Selector.AreReadFrom options.modules.isSome tokens r.selectors →
        ∀ s ∈ r.selectors, ∀ leads t, Selector.Contains inStyle s leads t →
          Selector.HasShape options.modules.isSome tokens leads t := by
  obtain ⟨ctx, tokens, hmodules, hleads, hparse⟩ :=
    Rule.read_of_occurs (StyleSheet.allHold_of_established (Checks.established_read _ _) h) hr hne
  refine ⟨⟨tokens, ctx, hmodules, hparse⟩, ?_⟩
  rintro tokens' ⟨ctx', hmodules', hparse'⟩ s hs leads t ht
  have hread : Selector.IsArranged ctx.modules tokens inStyle s := by
    have hread := Selector.isArranged_of_parseAll hparse hs
    cases inStyle with
    | false => rwa [hleads rfl] at hread
    | true =>
      cases hctx : (ctx.relative || ctx.implicit) with
      | false => exact (hctx ▸ hread).weaken
      | true => rwa [hctx] at hread
  -- How the selector starts and ends is a matter of the rule, not of the tokens that are compared.
  obtain ⟨leads', ht'⟩ := ht.change (ctx'.relative || ctx'.implicit)
  have hshape := (Selector.isArranged_of_parseAll hparse' hs).hasShape ht'
  rw [hmodules'] at hshape
  exact ⟨(hread.hasShape ht).opens, (hread.hasShape ht).closes, hshape.apart, hshape.types⟩

/-- In `.a > :global(.b):has(> div.c:not(:local .d > p, *)){}` each selector has a regular shape. -/
theorem StyleSheet.parse_hasShape_scoped : ∃ sheet r,
      StyleSheet.parse ".a > :global(.b):has(> div.c:not(:local .d > p, *))\x7b\x7d"
          { modules := some {} } = .ok sheet ∧
        Rule.Occurs sheet.rules false r ∧ r.selectors.length = 1 ∧
          ∀ s ∈ r.selectors, ∀ leads t, Selector.Contains false s leads t →
            (leads = false → t.inPlace.opens = true) ∧ t.inPlace.closes = true ∧
              List.IsChain Selector.Apart t.inPlace ∧ List.IsChain Selector.TypeBehind t.inPlace := by
  let tokens := scan ".a > :global(.b):has(> div.c:not(:local .d > p, *))"
  obtain ⟨sheet, hparse, hcheck⟩ := Rule.ok_of_any
    (x := StyleSheet.parse ".a > :global(.b):has(> div.c:not(:local .d > p, *))\x7b\x7d"
      { modules := some {} })
    (p := fun sheet => sheet.rules.head?.any fun r => r.selectors.length == 1 &&
      (Selector.parseAll { modules := true } tokens).toOption.any (· == r.selectors))
    (by decide +kernel)
  obtain ⟨r, hr, hselectors⟩ := (Option.any_eq_true _ _).mp hcheck
  obtain ⟨hlength, hread⟩ := Bool.and_eq_true_iff.mp hselectors
  obtain ⟨selectors, hparse', heq⟩ := Rule.ok_of_any hread
  rw [eq_of_beq heq] at hparse'
  have hoccurs : Rule.Occurs sheet.rules false r := .top (mem_of_mem_head? hr)
  have hne : r.selectors ≠ [] := by
    intro hnil
    rw [hnil] at hlength
    cases hlength
  refine ⟨sheet, r, hparse, hoccurs, beq_iff_eq.mp hlength, fun s hs leads t ht => ?_⟩
  have hshape := (StyleSheet.parse_hasShape hparse hoccurs hne).2 tokens ⟨_, rfl, hparse'⟩ s hs leads t ht
  refine ⟨hshape.opens, hshape.closes, hshape.apart fun _ => ?_, hshape.types fun _ => ?_⟩
  · decide +kernel
  · decide +kernel

/-- In `.a:local(div),.a > :global > .b{}` the type selector of the first selector stands behind a class,
and two combinators stand next to each other in the second one. -/
theorem StyleSheet.parse_hasShape_exceptions : ∃ sheet r s t,
      StyleSheet.parse ".a:local(div),.a > :global > .b\x7b\x7d" { modules := some {} } = .ok sheet ∧
        Rule.Occurs sheet.rules false r ∧ r.selectors = [s, t] ∧
          ¬List.IsChain Selector.TypeBehind s.inPlace ∧ ¬List.IsChain Selector.Apart t.inPlace := by
  obtain ⟨sheet, hparse, hcheck⟩ := Rule.ok_of_any
    (x := StyleSheet.parse ".a:local(div),.a > :global > .b\x7b\x7d" { modules := some {} })
    (p := fun sheet => sheet.rules.head?.any fun r => r.selectors ==
      [[.className "a", .element "div"],
        [.className "a", .combinator .child, .combinator .child, .global [.className "b"]]])
    (by decide +kernel)
  obtain ⟨r, hr, hselectors⟩ := (Option.any_eq_true _ _).mp hcheck
  refine ⟨sheet, r, _, _, hparse, .top (mem_of_mem_head? hr), eq_of_beq hselectors, ?_, ?_⟩
  · intro hchain
    cases (isChain_cons_cons.mp hchain).1 rfl
  · intro hchain
    cases (isChain_cons_cons.mp (isChain_cons_cons.mp hchain).2).1 rfl

end Css
