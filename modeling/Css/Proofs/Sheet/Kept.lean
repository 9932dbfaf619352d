import Css.Proofs.Declaration.Words

/-!
# Style rules that are kept as values

The contents of an at-rule that is not known are kept as values.
-/
namespace Css
open List Text Token Value Selector RuleParser

def Rule.selectorLists : Rule → List (List Selector)
  | style b rs => b.selectors :: ofAll rs
  | nest b rs => b.selectors :: ofAll rs
  | group _ rs _ => ofAll rs
  | statement .. => []
where
  ofAll : List Rule → List (List Selector)
    | [] => []
    | r :: rs => r.selectorLists ++ ofAll rs

structure KeptRule where
  selectors : List Selector
  declarations : List Wording

namespace KeptRule

def closedUp (r : KeptRule) : KeptRule := { r with selectors := r.selectors.map Selector.closedUp }

def shapes (tight : Bool) : List KeptRule → List Shape
  | [] => []
  | r :: rs =>
    Selector.shapesAll tight r.selectors ++ ((.leftBrace,"\x7b") :: (Wording.shapesAll tight r.declarations ++
        ((.rightBrace,"\x7d") :: shapes tight rs)))

def contents : List KeptRule → Value
  | [] => []
  | r :: rs =>
    Selector.componentsAll r.selectors ++ (.block .brace (Wording.componentsAll r.declarations) :: contents rs)

section
variable {tight : Bool} {rs : List KeptRule}
  (h : ∀ r ∈ rs, r.selectors ≠ [] ∧ ∀ s ∈ r.selectors, Selector.ReadsAs tight {} s)

include h

lemma scans_shapes : Scans anything (shapes tight rs) := by
  induction rs with
  | nil => exact scans_nil _
  | cons r rs ih =>
    obtain ⟨hne,hs⟩ := h r mem_cons_self
    have hm := ih fun r hr => h r (mem_cons_of_mem _ hr)
    have ho : Scans anything [(.leftBrace,"\x7b")] := scans_char fun _ => rfl
    have hc : Scans anything [(.rightBrace,"\x7d")] := scans_char fun _ => rfl
    have hb := (Wording.scans_shapesAll tight r.declarations).append (hc.append hm fun _ _ => rfl) fun _ _ => rfl
    exact (scans_shapesAll hs hne).1.append (ho.append hb fun _ _ => rfl) fun _ _ => rfl

lemma ne_comment_of_mem_shapes : ∀ s ∈ shapes tight rs, s.1 ≠ .comment := by
  induction rs with
  | nil =>
    intro s hs
    cases hs
  | cons r rs ih =>
    have hb := balanced_shapesAll (h r mem_cons_self).2
    have hm := ih fun r hr => h r (mem_cons_of_mem _ hr)
    intro s hs
    rcases mem_append.mp hs with hs | hs
    · exact hb.ne_comment s.1 (mem_map_of_mem hs)
    rcases mem_cons.mp hs with rfl | hs
    · decide
    rcases mem_append.mp hs with hs | hs
    · exact Wording.ne_comment_of_mem_shapesAll s hs
    rcases mem_cons.mp hs with rfl | hs
    · decide
    · exact hm s hs

lemma scanRules_of_shapes {text : String} (htx : text.toList = textOf (shapes tight rs)) :
    (scanRules text).map shape = shapes tight rs := by
  have hs : (scan text).map shape = shapes tight rs := by
    have hsh := scans_shapes h [] rfl
    rw [shapes_nil,append_nil,append_nil] at hsh
    rw [scan,map_shape_scanFrom,htx,hsh]
  have hr : scanRules text = scan text := by
    refine filter_eq_self.mpr fun t ht => bne_iff_ne.mpr ?_
    have hm : t.shape ∈ shapes tight rs := by
      rw [← hs]
      exact mem_map_of_mem ht
    exact ne_comment_of_mem_shapes h t.shape hm
  rw [hr,hs]

end

section
variable {d : Dialect}

lemma selectorContext_top (hmodules : d.modules = false) : selectorContext d .top = {} := by
  rw [selectorContext,hmodules]; rfl

lemma body_of_startsSelector {t : Token} (ht : t.shape.startsSelector) (fuel : Nat) (rest : List Token) :
    body d (fuel + 1) .top none (t :: rest) = (do
      let (rs,rest) ← styleRule d (fun scope opening => body d fuel scope (some opening)) .top t rest
      let (b,rest) ← body d fuel .top none rest
      return (b.addRules rs,rest)) := by
  obtain ⟨kind,text,span⟩ := t
  cases kind <;> first | rfl | cases ht

lemma isSelectorEnd_top {t : Token} (ht : (t.kind.isFlat || t.kind.opensParen)) : isSelectorEnd .top t = false := by
  obtain ⟨kind,text,span⟩ := t
  cases kind <;> first | rfl | cases ht

variable (hmodules : d.modules = false) {tight : Bool}

include hmodules

lemma styleRule_of_shapes {selectors : List Selector} (hne : selectors ≠ [])
    (h : ∀ s ∈ selectors, Selector.ReadsAs tight {} s) {ds : List Wording}
    {first opening closing : Token} {prelude inside : List Token}
    (hp : (first :: prelude).map shape = Selector.shapesAll tight selectors)
    (ho : opening.kind = .leftBrace)
    (hi : inside.map shape = Wording.shapesAll tight ds)
    (hc : closing.kind = .rightBrace) {fuel : Nat} (hf : inside.length < fuel)
    (post : List Token) :
    ∃ r, RuleParser.styleRule d (fun scope opening => RuleParser.body d fuel scope (some opening)) .top
        first (prelude ++ opening :: (inside ++ closing :: post)) = pure ([r],post) ∧
      r.selectorLists = [selectors] := by
  have hb : Balanced false ((first :: prelude).map kind) := by
    have hb := Selector.balanced_shapesAll h
    rw [← hp,map_map] at hb
    exact hb
  have he (rest : List Token) :
      splitBefore (RuleParser.isSelectorEnd .top) 0 (opening :: rest) = ([],opening :: rest) := by
    rw [splitBefore,RuleParser.isSelectorEnd,ho]; rfl
  have hs (rest : List Token) : splitBefore (RuleParser.isSelectorEnd .top) 0 (first :: (prelude ++ opening :: rest)) =
        (first :: prelude,opening :: rest) := by
    rw [← cons_append,splitBefore_of_balanced hb (fun _ _ => isSelectorEnd_top),he,append_nil]
  have hpr : Selector.parseAll {} (first :: prelude) = .ok selectors := by
    refine Selector.parseList_of_shapesAll h ?_ hne hp
    rw [← hp,length_map]
    exact Nat.lt_succ_self _
  obtain ⟨b,hbd,hr⟩ := Wording.body_of_shapesAll hmodules hi hc opening post hf
  refine ⟨.style ⟨selectors,b.declarations,b.composes,d.location first⟩ b.rules,?_,?_⟩
  · rw [RuleParser.styleRule,hs]
    dsimp only
    rw [ho,selectorContext_top hmodules,hpr,if_pos (beq_self_eq_true _)]
    dsimp only
    rw [hbd,pure_bind]
  · rw [hr]; rfl

lemma body_of_shapes {rs : List KeptRule}
    (h : ∀ r ∈ rs, r.selectors ≠ [] ∧ ∀ s ∈ r.selectors, Selector.ReadsAs tight {} s)
    {ts : List Token} (ht : ts.map shape = shapes tight rs) {fuel : Nat}
    (hf : ts.length < fuel) :
    ∃ b, RuleParser.body d fuel .top none ts = pure (b,[]) ∧ Rule.selectorLists.ofAll b.rules = rs.map selectors := by
  induction rs generalizing ts fuel with
  | nil =>
    obtain ⟨fuel,rfl⟩ := Nat.exists_eq_succ_of_ne_zero (Nat.ne_zero_of_lt hf)
    cases map_eq_nil_iff.mp ht
    exact ⟨{},rfl,rfl⟩
  | cons r rs ih =>
    obtain ⟨hne,hs⟩ := h r mem_cons_self
    obtain ⟨prelude,post,rfl,hp,ha⟩ := map_eq_append_iff.mp ht
    obtain ⟨opening,post,rfl,ho,ha⟩ := map_eq_cons_iff.mp ha
    obtain ⟨inside,post,rfl,hi,ha⟩ := map_eq_append_iff.mp ha
    obtain ⟨closing,post,rfl,hc,ha⟩ := map_eq_cons_iff.mp ha
    have hst := any_head?_of_map hp (Selector.start_shapesAll hs hne)
    cases prelude with
    | nil => cases hst
    | cons first prelude =>
      simp only [length_append,length_cons] at hf
      obtain ⟨fuel,rfl⟩ : ∃ n, fuel = n + 1 := ⟨fuel - 1,by omega⟩
      have hm := fun r hr => h r (mem_cons_of_mem _ hr)
      have hsh : post.length < fuel := by omega
      have hin : inside.length < fuel := by omega
      obtain ⟨b,hb,hl⟩ := ih hm ha hsh
      obtain ⟨rule,hrl,hsl⟩ := styleRule_of_shapes hmodules hne hs hp (kind_of_shape ho) hi (kind_of_shape hc) hin post
      refine ⟨b.addRules [rule],?_,?_⟩
      · rw [cons_append,body_of_startsSelector hst,hrl,pure_bind]
        dsimp only
        rw [hb,pure_bind]
      · have hal : Rule.selectorLists.ofAll (b.addRules [rule]).rules =
            rule.selectorLists ++ Rule.selectorLists.ofAll b.rules := rfl
        rw [hal,hsl,hl]; rfl

end

lemma exists_parse {opts : ParseOptions} (hmodules : opts.modules = none) {tight : Bool} {rs : List KeptRule}
    (h : ∀ r ∈ rs, r.selectors ≠ [] ∧ ∀ s ∈ r.selectors, Selector.ReadsAs tight {} s)
    {text : String} (ht : text.toList = textOf (shapes tight rs)) :
    ∃ sheet, StyleSheet.parse text opts = .ok sheet ∧ Rule.selectorLists.ofAll sheet.rules = rs.map selectors := by
  have ho (file : SourceFile) : (StyleSheet.dialect file opts).modules = false := by
    rw [StyleSheet.dialect,hmodules]; rfl
  have hs := scanRules_of_shapes h ht
  obtain ⟨b,hb,hl⟩ := body_of_shapes (ho (SourceFile.ofText opts.filename text)) h hs (Nat.lt_succ_self _)
  have hp : Rule.parse (StyleSheet.dialect (SourceFile.ofText opts.filename text) opts) text =
      pure b.rules := by
    rw [Rule.parse]
    dsimp only
    rw [hb,pure_bind]
  refine ⟨⟨opts.filename,text,b.rules,opts.modules,opts.customMedia,[],none,[],[]⟩,?_,hl⟩
  rw [StyleSheet.parse,StyleSheet.checkPattern,hmodules]
  dsimp only [bind,Except.bind]
  rw [hp]; rfl

open Component.render

section
variable {rs : List KeptRule} (h : ∀ r ∈ rs, r.selectors ≠ [] ∧ ∀ s ∈ r.selectors, s.IsContent)

include h

lemma head?_contents (hr : rs ≠ []) : (contents rs).head?.any (fun c => !c.isWhitespace) := by
  cases rs with
  | nil => exact absurd rfl hr
  | cons r rs =>
    obtain ⟨hne,hs⟩ := h r mem_cons_self
    exact any_head?_append (componentsAll_ends hs hne).1 _

omit h in
lemma getLast?_contents (hr : rs ≠ []) : (contents rs).getLast?.any (fun c => !c.isWhitespace) := by
  induction rs, hr using recNeNil with
  | singleton r => exact any_getLast?_append _ rfl
  | cons r rs _ ih =>
    refine any_getLast?_append _ ?_
    exact any_getLast?_append [.block .brace (Wording.componentsAll r.declarations)] ih

lemma isTrimmed_contents : isTrimmed (contents rs) := by
  by_cases hn : rs = []
  · subst hn
    rfl
  · exact isTrimmed_of_ends (head?_contents h hn) (getLast?_contents hn)

lemma isRead_contents : IsRead whatever (contents rs) (shapes false rs) := by
  induction rs with
  | nil => exact isRead_nil
  | cons r rs ih =>
    obtain ⟨hne,hs⟩ := h r mem_cons_self
    have hm := ih fun r hr => h r (mem_cons_of_mem _ hr)
    have hb : IsRead whatever [.block .brace (Wording.componentsAll r.declarations)]
        ((.leftBrace,"\x7b") :: (Wording.shapesAll false r.declarations ++ [(.rightBrace,"\x7d")])) := by
      refine (Wording.isRead_componentsAll r.declarations).group
        (Wording.isTrimmed_componentsAll r.declarations) (.inr (.inr rfl)) rfl rfl ?_
      intro file dashed t pre ht
      rw [Frame.close,kind_of_shape ht]
    have ha := ((Selector.isRead_componentsAll hs hne).append hb rfl).append_any hm
    simp only [append_assoc,cons_append,nil_append] at ha
    exact ha

lemma toList_contents {minify : Bool} {f : Selector → Selector} (ht : ∀ r ∈ rs, ∀ s ∈ r.selectors,
      (renderList minify none s.components).toList = textOf ((f s).shapes minify)) :
    ((contents rs).render minify).toList =
      textOf (shapes minify (rs.map fun r => { r with selectors := r.selectors.map f })) := by
  rw [Value.render]
  induction rs with
  | nil => rfl
  | cons r rs ih =>
    obtain ⟨hne,hs⟩ := h r mem_cons_self
    have hrs := fun r hr => h r (mem_cons_of_mem _ hr)
    have hm := ih hrs fun r hr => ht r (mem_cons_of_mem _ hr)
    have hl := toList_componentsAll hs (ht r mem_cons_self)
    have hb (pre : Component) : renderList minify (some pre) (contents rs) = renderList minify none (contents rs) := by
      by_cases hn : rs = []
      · subst hn
        rfl
      · exact Component.renderList_of_head minify _ (head?_contents hrs hn)
    have hbl (pre post : Option Component) (xs : List Component) :
        (Component.textBetween minify pre post (.block .brace xs)).toList =
          "\x7b".toList ++ ((renderList minify none xs).toList ++ "\x7d".toList) := by
      change ((Component.block .brace xs).render minify).toList = _
      rw [Component.render,String.toList_append,String.toList_append,append_assoc]; rfl
    rw [contents,Component.renderList_append minify none (componentsAll_ends hs hne).2.1,
      Component.renderList_cons,hb,String.toList_append,String.toList_append,hbl,hl,
      hm,Wording.toList_componentsAll,map_cons,shapes,textOf_append,textOf_cons,
      textOf_append,textOf_cons,append_assoc,append_assoc]

end
end KeptRule

namespace Selector

/-- Selectors that a source without null characters is parsed to, outside of all rules. No arguments in
them are kept as text, and no id is written otherwise as a value. -/
structure ArePlain (selectors : List Selector) : Prop where
  parsed : ∃ (source : String) (tokens : List Token), Written.HasNoNull source.toList ∧
    (∀ t ∈ tokens, t ∈ scan source) ∧ parseAll {} tokens = .ok selectors
  text : ∀ s ∈ selectors, s.anywhere Part.isText = false
  ids : ∀ s ∈ selectors, s.anywhere Part.isRewritten = false

namespace ArePlain
variable {selectors : List Selector} (h : ArePlain selectors)

include h

lemma of_isParsed {inner : Context → Selector → Prop} (hs : ∀ ctx s, IsParsed inner ctx s → inner ctx s) :
    selectors ≠ [] ∧ ∀ s ∈ selectors, inner {} s := by
  obtain ⟨src,tokens,hn,htk,hp⟩ := h.parsed
  have hl : AllLegible tokens := fun t ht => legible_of_mem_scan hn (htk t ht)
  have hc : Context.IsConsistent {} := id
  exact (gives_parseDeep hs (tokens.length + 1)).parseList rfl hc hl hp

lemma readsAs : selectors ≠ [] ∧ ∀ s ∈ selectors, ReadsAs false {} s := by
  obtain ⟨hne,hr⟩ := h.of_isParsed fun _ s => reads_of_isParsed s
  exact ⟨hne,fun s hs => hr s hs rfl (h.text s hs)⟩

lemma readsAs_closedUp : selectors.map closedUp ≠ [] ∧ ∀ s ∈ selectors.map closedUp, ReadsAs true {} s := by
  obtain ⟨hne,hr⟩ := h.of_isParsed fun _ s => reads_closedUp s
  refine ⟨fun hn => hne (map_eq_nil_iff.mp hn),forall_mem_map.mpr fun s hs => ?_⟩
  refine hr s hs rfl ?_
  rw [anywhere_closedUp (fun p => by cases p <;> rfl) fun _ => rfl]
  exact h.text s hs

lemma isContent : selectors ≠ [] ∧ ∀ s ∈ selectors, s.IsContent := by
  obtain ⟨hne,hk⟩ := h.of_isParsed fun _ s => isKept_of_isParsed s
  exact ⟨hne,fun s hs => hk s hs (h.text s hs) (h.ids s hs)⟩

end ArePlain
end Selector

namespace KeptRule
variable {rs : List KeptRule} (h : ∀ r ∈ rs, Selector.ArePlain r.selectors)

include h

lemma toList_pretty : ((contents rs).render false).toList = textOf (shapes false rs) := by
  have hc := fun r hr => (h r hr).isContent
  have ht := toList_contents hc (f := id) fun r hr s hs => ((hc r hr).2 s hs).pretty
  simp only [map_id,map_id'] at ht
  exact ht

lemma toList_minified : ((contents rs).render true).toList = textOf (shapes true (rs.map closedUp)) := by
  have hc := fun r hr => (h r hr).isContent
  exact toList_contents hc fun r hr s hs => ((hc r hr).2 s hs).minified

lemma parse_pretty (file : SourceFile) (dashed : Bool) (offset : Nat) :
    Value.parse file dashed (scanFrom offset ((contents rs).render false).toList) = .ok (contents rs) := by
  have hc := fun r hr => (h r hr).isContent
  have hs := scans_shapes (fun r hr => (h r hr).readsAs) [] rfl
  rw [shapes_nil,append_nil,append_nil] at hs
  refine (isRead_contents hc).parse_scanFrom (isTrimmed_contents hc) ?_ file dashed offset
  rw [toList_pretty h,hs]

omit h in
lemma map_closedUp_eq_iff (rs : List KeptRule) : (rs.map closedUp).map selectors = rs.map selectors ↔
      rs.all (fun r => !r.selectors.any losesBlank) := by
  induction rs with
  | nil => exact ⟨fun _ => rfl,fun _ => rfl⟩
  | cons r rs ih =>
    rw [map_cons,map_cons,map_cons,List.cons.injEq,ih,all_cons,
      Bool.and_eq_true,Bool.not_eq_true',← map_closedUp_eq_self_iff]
    rfl

end KeptRule

/-- An at-rule of an unknown name whose block holds style rules is kept with the value of the rules. From
the pretty text of the value the rules are parsed. From the minified text rules are parsed with the
same selectors without their blanks before colons, so that all selectors are the same if and only if
there is no such blank. -/
theorem StyleSheet.selectorLists_minified {rules : List KeptRule}
    (h : ∀ r ∈ rules, Selector.ArePlain r.selectors) {d : Dialect} {a : RuleParser.AtRule}
    {opening : Token} (hopening : a.opening = some opening) {prelude : Value}
    (hprelude : Value.parse d.file false a.prelude = .ok prelude) {offset : Nat} {after : List Token}
    (hblock : splitClosing 1 a.inner =
      some (scanFrom offset ((KeptRule.contents rules).render false).toList, after))
    {options : ParseOptions} (hmodules : options.modules = none) :
    RuleParser.unknownRule d a =
        pure (.unknown a.name prelude (some (KeptRule.contents rules)), after) ∧
      ∃ pretty minified,
        StyleSheet.parse ((KeptRule.contents rules).render false) options = .ok pretty ∧
          StyleSheet.parse ((KeptRule.contents rules).render true) options = .ok minified ∧
            Rule.selectorLists.ofAll pretty.rules = rules.map KeptRule.selectors ∧
              Rule.selectorLists.ofAll minified.rules =
                  rules.map (fun r => r.selectors.map Selector.closedUp) ∧
                (Rule.selectorLists.ofAll minified.rules = Rule.selectorLists.ofAll pretty.rules ↔
                  rules.all (fun r => !r.selectors.any Selector.losesBlank) = true) := by
  constructor
  · rw [RuleParser.unknownRule, hprelude, hopening, hblock]
    dsimp only [MonadExcept.ofExcept]
    rw [pure_bind, KeptRule.parse_pretty h]
    rfl
  · obtain ⟨pretty, hpretty, hlists⟩ := KeptRule.exists_parse hmodules
      (fun r hr => (h r hr).readsAs) (KeptRule.toList_pretty h)
    have hclosed : ∀ r ∈ rules.map KeptRule.closedUp, r.selectors ≠ [] ∧
        ∀ s ∈ r.selectors, Selector.ReadsAs true {} s :=
      forall_mem_map.mpr fun r hr => (h r hr).readsAs_closedUp
    obtain ⟨minified, hminified, hlists'⟩ := KeptRule.exists_parse hmodules hclosed
      (KeptRule.toList_minified h)
    refine ⟨pretty, minified, hpretty, hminified, hlists, ?_, ?_⟩
    · rw [hlists', map_map]
      rfl
    · rw [hlists, hlists']
      exact KeptRule.map_closedUp_eq_iff rules

/-- In `@container x{a > :hover, b:not(.c :first-child){d: e f;}}` the first of the blanks before colons
stands behind a combinator and the second one is a combinator. -/
theorem StyleSheet.selectorLists_minified_container :
    let word (s : String) (h : Written.HasNoNull s.toList ∧ s ≠ "") : Word := ⟨s, ⟨h.1, h.2⟩⟩
    let child : Selector := [.element "a", .combinator .child, .pseudoClass "hover"]
    let descendant : Selector := [.className "c", .combinator .descendant, .pseudoClass "first-child"]
    let compound : Selector := [.className "c", .pseudoClass "first-child"]
    let rules : List KeptRule :=
      [⟨[child, [.element "b", .pseudoClassOf "not" [descendant]]],
        [⟨word "d" (by decide), word "e" (by decide), [word "f" (by decide)]⟩]⟩]
    (KeptRule.contents rules).render false = "a > :hover, b:not(.c :first-child)\x7bd: e f;\x7d" ∧
      ∃ minified, StyleSheet.parse ((KeptRule.contents rules).render true) {} = .ok minified ∧
        Rule.selectorLists.ofAll minified.rules =
          [[child, [.element "b", .pseudoClassOf "not" [compound]]]] := by
  intro word child descendant compound rules
  have hpretty : (KeptRule.contents rules).render false =
      "a > :hover, b:not(.c :first-child)\x7bd: e f;\x7d" := by decide +kernel
  have hplain : ∀ r ∈ rules, Selector.ArePlain r.selectors := by
    intro r hr
    cases mem_singleton.mp hr
    obtain ⟨selectors, hparse, hselectors⟩ := Rule.ok_of_any
      (x := Selector.parseAll {} (scan "a > :hover, b:not(.c :first-child)"))
      (p := fun selectors => selectors == [child, [.element "b", .pseudoClassOf "not" [descendant]]])
      (by decide +kernel)
    rw [eq_of_beq hselectors] at hparse
    exact ⟨⟨_, _, by decide +kernel, fun _ ht => ht, hparse⟩, by decide +kernel, by decide +kernel⟩
  let source := "@container x\x7ba > :hover, b:not(.c :first-child)\x7bd: e f;\x7d\x7d"
  let d := dialect (SourceFile.ofText "" source) {}
  let a := RuleParser.AtRule.cut ⟨.atKeyword, "@container", ⟨0, 10⟩⟩ (scanRules source).tail
  obtain ⟨prelude, hprelude, -⟩ := Rule.ok_of_any (x := Value.parse d.file false a.prelude)
    (p := fun _ => true) (by decide +kernel)
  have hopening : a.opening = some ⟨.leftBrace, "\x7b", ⟨12, 13⟩⟩ := by decide +kernel
  have hblock : splitClosing 1 a.inner =
      some (scanFrom 13 ((KeptRule.contents rules).render false).toList, []) := by decide +kernel
  have hmodules : ParseOptions.modules {} = none := rfl
  obtain ⟨-, pretty, minified, -, hminified, -, hlists, -⟩ :=
    StyleSheet.selectorLists_minified hplain hopening hprelude hblock hmodules
  exact ⟨hpretty, minified, hminified, hlists⟩

def Rule.contents? : Rule → Option Value
  | statement (.unknown _ _ block) _ => block
  | _ => none

/-- In `@container x{a :hover{c:d}}` the blank before the colon is a combinator, so that the rule in
the minified contents selects other elements than the one in the pretty contents. -/
theorem StyleSheet.selectorLists_minified_ne : ∃ sheet contents pretty minified,
      StyleSheet.parse "@container x\x7ba :hover\x7bc:d\x7d\x7d" {} = .ok sheet ∧
        sheet.rules.filterMap Rule.contents? = [contents] ∧
          StyleSheet.parse (contents.render false) {} = .ok pretty ∧
            StyleSheet.parse (contents.render true) {} = .ok minified ∧
              Rule.selectorLists.ofAll pretty.rules =
                  [[[.element "a", .combinator .descendant, .pseudoClass "hover"]]] ∧
                Rule.selectorLists.ofAll minified.rules =
                  [[[.element "a", .pseudoClass "hover"]]] := by
  obtain ⟨sheet, hparse, hcheck⟩ := Rule.ok_of_any
    (x := StyleSheet.parse "@container x\x7ba :hover\x7bc:d\x7d\x7d" {})
    (p := fun sheet => (sheet.rules.filterMap Rule.contents?).length == 1 &&
        (sheet.rules.filterMap Rule.contents?).all fun contents =>
          (StyleSheet.parse (contents.render false) {}).toOption.any (fun pretty =>
            Rule.selectorLists.ofAll pretty.rules ==
              [[[.element "a", .combinator .descendant, .pseudoClass "hover"]]]) &&
          (StyleSheet.parse (contents.render true) {}).toOption.any (fun minified =>
            Rule.selectorLists.ofAll minified.rules == [[[.element "a", .pseudoClass "hover"]]]))
    (by decide +kernel)
  rw [Bool.and_eq_true, beq_iff_eq] at hcheck
  obtain ⟨contents, hcontents⟩ := length_eq_one_iff.mp hcheck.1
  rw [hcontents, all_cons, Bool.and_eq_true, Bool.and_eq_true] at hcheck
  obtain ⟨pretty, hpretty, hdescendant⟩ := Rule.ok_of_any hcheck.2.1.1
  obtain ⟨minified, hminified, hcompound⟩ := Rule.ok_of_any hcheck.2.1.2
  exact ⟨sheet, contents, pretty, minified, hparse, hcontents, hpretty, hminified,
    eq_of_beq hdescendant, eq_of_beq hcompound⟩

end Css
