import Css.Proofs.Cursor.Prelude
import Css.Proofs.Cursor.Selector
import Css.Rule.Parser

/-!
# At-rules under a cursor

The parser of at-rules as one that cuts a rule at indices. It leaves the cursor behind the rule, or
where a body inside of the rule ends.
-/
namespace Css.Cursor
open List Token Declaration RuleParser CheckM Nat Prelude

/-- A parser for the body behind an opening brace. It also gives the index behind the closing brace. -/
abbrev NestedBody := Scope → Token → Nat → CheckM (Body × Nat)

structure Head where
  keyword : Token
  prelude : List Token
  opening : Option Token
  inner : Nat
  after : Nat

def Head.rule (ts : List Token) (a : Head) : AtRule := ⟨a.keyword,a.prelude,a.opening,ts.drop a.inner,ts.drop a.after⟩

lemma rule_prelude (ts : List Token) (a : Head) : (a.rule ts).prelude = a.prelude := rfl

lemma rule_inner (ts : List Token) (a : Head) : (a.rule ts).inner = ts.drop a.inner := rfl

lemma rule_opening (ts : List Token) (a : Head) : (a.rule ts).opening = a.opening := rfl

def cut (ts : List Token) (pos : Nat) : CheckM Head := do
  let keyword ← token ts pos
  let stop ← findTopLevel ts isPreludeEnd (pos + 1)
  let prelude := trimBlank (← slice ts (pos + 1) stop)
  match ts[stop]? with
  | none => return ⟨keyword,prelude,none,stop,stop⟩
  | some t =>
    if t.kind == .leftBrace then
      return ⟨keyword,prelude,some t,stop + 1,skipComponent ts stop⟩
    else if t.kind == .semicolon then return ⟨keyword,prelude,none,stop + 1,stop + 1⟩
    else return ⟨keyword,prelude,none,stop,stop⟩

section
variable (d : Dialect) (ts : List Token) (nested : NestedBody) (sc : Scope)

def groupRule (a : Head) (opening : Token) (group : Group) : CheckM (List Rule × Nat) := do
  let (body,stop) ← nested sc.inside opening a.inner
  return ([.group group (body.groupRules (d.location opening)) (d.location a.keyword)],stop)

def mediaRule (a : Head) : CheckM (List Rule × Nat) := do
  let opening ← lift (a.rule ts).requireBlock
  let query ← mediaList d.file a.prelude
  groupRule d nested sc a opening (.media query)

def supportsRule (a : Head) : CheckM (List Rule × Nat) := do
  let opening ← lift (a.rule ts).requireBlock
  let condition ← value d.file false a.prelude
  if condition.isEmpty then throw (a.rule ts).invalidPrelude
  groupRule d nested sc a opening (.supports condition)

def layerRule (a : Head) : CheckM (List Rule × Nat) := do
  match a.opening with
  | some opening =>
    if a.prelude.isEmpty then groupRule d nested sc a opening (.layer none)
    else do
      let name ← lift ((a.rule ts).requirePrelude (Prelude.layerName? a.prelude))
      groupRule d nested sc a opening (.layer (some name))
  | none => do
    let names ← lift ((a.rule ts).requirePrelude (← layerNames a.prelude))
    return ([.statement (.layers names) (d.location a.keyword)],a.inner)

def nestRule (a : Head) : CheckM (List Rule × Nat) := do
  lift ((a.rule ts).require (sc == .style))
  let opening ← lift (a.rule ts).requireBlock
  let selectors ← selectors (nestContext d) a.prelude
  let (body,stop) ← nested .style opening a.inner
  let block := ⟨selectors,body.declarations,body.composes,d.location a.keyword⟩
  return ([.nest block body.rules],stop)

def keyframesRule (a : Head) : CheckM (Statement × Nat) := do
  lift ((a.rule ts).require (sc != .style))
  let opening ← lift (a.rule ts).requireBlock
  let (name,quoted) ← lift ((a.rule ts).requirePrelude (Prelude.keyframesName? a.prelude))
  let (frames,stop) ← keyframes d ts opening a.inner
  return (.keyframes name quoted (Vendor.split (a.rule ts).name).1 frames,stop)

def fontFaceRule (a : Head) : CheckM (Statement × Nat) := do
  lift ((a.rule ts).require (sc != .style))
  let opening ← lift (a.rule ts).requireBlock
  if !a.prelude.isEmpty then throw (a.rule ts).invalidPrelude
  let (declarations,stop) ← declarationList d ts opening a.inner
  return (.fontFace declarations,stop)

def pageRule (a : Head) : CheckM (Statement × Nat) := do
  lift ((a.rule ts).require (sc != .style))
  let opening ← lift (a.rule ts).requireBlock
  let (declarations,stop) ← declarationList d ts opening a.inner
  return (.page (plainText a.prelude) declarations,stop)

def propertyRule (a : Head) : CheckM (Statement × Nat) := do
  lift ((a.rule ts).require (sc != .style))
  let opening ← lift (a.rule ts).requireBlock
  match Prelude.dashedName? a.prelude with
  | some (name,[]) => do
    let (declarations,stop) ← declarationList d ts opening a.inner
    return (.property name declarations,stop)
  | _ => throw (a.rule ts).invalidPrelude

def importRule (a : Head) : CheckM (Statement × Nat) := do
  lift ((a.rule ts).require (sc == .top))
  lift (a.rule ts).refuseBlock
  let found ← importSheet d.file a.prelude
  return (← lift ((a.rule ts).requirePrelude found),a.inner)

def namespaceRule (a : Head) : CheckM (Statement × Nat) := do
  lift ((a.rule ts).require (sc == .top))
  lift (a.rule ts).refuseBlock
  return (← lift ((a.rule ts).requirePrelude (← namespaceOf a.prelude)),a.inner)

def customMediaRule (a : Head) : CheckM (Statement × Nat) := do
  lift ((a.rule ts).require (sc == .top))
  lift (a.rule ts).refuseBlock
  let (name,rest) ← lift ((a.rule ts).requirePrelude (Prelude.dashedName? a.prelude))
  if (trimBlank rest).isEmpty then throw (a.rule ts).invalidPrelude
  let media ← mediaList d.file rest
  return (.customMedia name media,a.inner)

def unknownRule (a : Head) : CheckM (Statement × Nat) := do
  let prelude ← value d.file false a.prelude
  match a.opening with
  | none => return (.unknown (a.rule ts).name prelude none,a.inner)
  | some opening =>
    match matchingClose ts (← pred a.inner) with
    | none => throw (.parse .unclosedBlock opening.span)
    | some close => do
      let block ← value d.file false (← slice ts a.inner close)
      return (.unknown (a.rule ts).name prelude (some block),close + 1)

def statementRule (a : Head) : CheckM (Statement × Nat) := let name := (a.rule ts).name
  if (Vendor.split name).2 == "keyframes" then keyframesRule d ts sc a
  else if name == "font-face" then fontFaceRule d ts sc a
  else if name == "page" then pageRule d ts sc a
  else if name == "property" then propertyRule d ts sc a
  else if name == "import" then importRule d ts sc a
  else if name == "namespace" then namespaceRule ts sc a
  else if name == "custom-media" && d.customMedia then customMediaRule d ts sc a
  else unknownRule d ts a

def atRuleNamed (a : Head) : CheckM (List Rule × Nat) := let name := (a.rule ts).name
  if name == "media" then mediaRule d ts nested sc a
  else if name == "supports" then supportsRule d ts nested sc a
  else if name == "layer" then layerRule d ts nested sc a
  else if name == "nest" then nestRule d ts nested sc a
  else if name == "charset" then return ([],a.inner)
  else do
    let (s,stop) ← statementRule d ts sc a
    return ([.statement s (d.location a.keyword)],stop)

def atRule (pos : Nat) : CheckM (List Rule × Nat) := do
  let a ← cut ts pos
  tryCatch (atRuleNamed d ts nested sc a) fun fault =>
    if fault.isUnclosedBlock then throw fault
    else do
      lift (d.recover fault)
      return ([],a.after)

end

structure CutAt (ts : List Token) (pos : Nat) (a : Head) : Prop where
  sublist : a.prelude.Sublist ts
  inner : pos < a.inner ∧ a.inner ≤ ts.length
  after : pos < a.after ∧ a.after ≤ ts.length
  opening : ∀ t, a.opening = some t → t.kind = .leftBrace ∧ ts[a.inner - 1]? = some t

lemma cut_spec {ts : List Token} {pos : Nat} {t : Token} (ht : ts[pos]? = some t) :
    ∃ a, cut ts pos = pure a ∧ CutAt ts pos a ∧ a.rule ts = AtRule.cut t (ts.drop (pos + 1)) := by
  have hlt : pos < ts.length := (List.getElem?_eq_some_iff.mp ht).1
  obtain ⟨stop,hsp,hs⟩ := findTopLevel_spec ts isPreludeEnd hlt
  have hle := hs.le
  have hle_length := hs.le_length
  have hp : (trimBlank (splitBefore isPreludeEnd 0 (ts.drop (pos + 1))).1).Sublist ts := by
    rw [hs.split]
    exact ((trimBlank_sublist _).trans (take_sublist _ _)).trans (drop_sublist _ _)
  rw [cut,token_eq ht,pure_bind,hsp,pure_bind,hs.slice_eq,pure_bind,AtRule.cut]
  have hr : (splitBefore isPreludeEnd 0 (ts.drop (pos + 1))).2 = ts.drop stop := congrArg Prod.snd hs.split
  generalize splitBefore isPreludeEnd 0 (ts.drop (pos + 1)) = ps at hp hr
  obtain ⟨prelude,rest⟩ := ps
  subst hr
  have hst : pos < stop ∧ stop ≤ ts.length := ⟨hle,hle_length⟩
  obtain ⟨hdr,hg,-⟩ | ⟨u,hdr,hg,hlt'⟩ := drop_cases ts stop
  · refine ⟨⟨t,trimBlank prelude,none,stop,stop⟩,?_,⟨hp,hst,hst,by simp⟩,?_⟩
    · rw [hg]
    · rw [Head.rule,hdr]
  · obtain ⟨hm,hsk⟩ := skipComponent_spec hg
    have hss : pos < stop + 1 ∧ stop + 1 ≤ ts.length := ⟨by omega,hlt'⟩
    rw [hdr,hg]
    dsimp only
    by_cases hb : (u.kind == .leftBrace)
    · rw [if_pos (by rw [beq_iff_eq.mp hb]; rfl)] at hsk
      refine ⟨⟨t,trimBlank prelude,some u,stop + 1,skipComponent ts stop⟩,if_pos hb,
        ⟨hp,hss,⟨by dsimp only; omega,hm.2⟩,?_⟩,?_⟩
      · rintro _ ⟨rfl⟩
        exact ⟨beq_iff_eq.mp hb,hg⟩
      · rw [if_pos hb,Head.rule,hsk]
    · rw [if_neg hb,if_neg hb]
      by_cases hsm : (u.kind == .semicolon)
      · refine ⟨⟨t,trimBlank prelude,none,stop + 1,stop + 1⟩,if_pos hsm,⟨hp,hss,hss,by simp⟩,?_⟩
        rw [if_pos hsm,Head.rule]
      · refine ⟨⟨t,trimBlank prelude,none,stop,stop⟩,if_neg hsm,⟨hp,hst,hst,by simp⟩,?_⟩
        rw [if_neg hsm,Head.rule,hdr]

section
variable {d : Dialect} {ts : List Token} {nested : NestedBody} {nested' : Nested} {sc : Scope}
  {pos : Nat} {a : Head} (hd : Distinct ts) (ha : CutAt ts pos a)
  (hnested : ∀ (sc : Scope) (opening : Token) {start : Nat}, pos < start ∧ start ≤ ts.length →
    Simulates (Left ts start) (nested sc opening start) (nested' sc opening (ts.drop start)))

include ha hnested in
lemma simulates_groupRule (opening : Token) (group : Group) :
    Simulates (Left ts (pos + 1)) (groupRule d nested sc a opening group)
      (RuleParser.groupRule d nested' sc (a.rule ts) opening group) := by
  rw [groupRule,RuleParser.groupRule,groupBody,bind_assoc]
  refine simulates_bind_left (hnested sc.inside opening ha.inner) fun body stop hs => ?_
  exact simulates_pure ⟨rfl,le_trans ha.inner.1 hs.1,hs.2,rfl⟩

include hd ha hnested in
lemma simulates_mediaRule : Simulates (Left ts (pos + 1)) (mediaRule d ts nested sc a)
      (RuleParser.mediaRule d nested' sc (a.rule ts)) := by
  refine simulates_lift_bind fun opening => ?_
  refine simulates_bind (simulates_of_reads (reads_mediaList d.file (hd.sublist ha.sublist))) ?_
  rintro q _ rfl
  exact simulates_groupRule ha hnested opening (.media q)

include ha hnested in
lemma simulates_supportsRule : Simulates (Left ts (pos + 1)) (supportsRule d ts nested sc a)
      (RuleParser.supportsRule d nested' sc (a.rule ts)) := by
  refine simulates_lift_bind fun opening => ?_
  refine simulates_bind (simulates_of_reads (reads_value d.file false a.prelude)) ?_
  rintro cond _ rfl
  dsimp only
  split
  · exact simulates_throw _
  · exact simulates_groupRule ha hnested opening (.supports cond)

include ha hnested in
lemma simulates_layerRule : Simulates (Left ts (pos + 1)) (layerRule d ts nested sc a)
      (RuleParser.layerRule d nested' sc (a.rule ts)) := by
  rw [layerRule,RuleParser.layerRule,rule_opening,rule_prelude]
  cases a.opening with
  | some opening =>
    dsimp only
    split
    · exact simulates_groupRule ha hnested opening (.layer none)
    · refine simulates_lift_bind fun name => ?_
      exact simulates_groupRule ha hnested opening (.layer (some name))
  | none =>
    dsimp only
    rw [layerNames_eq,pure_bind]
    refine simulates_lift_bind fun ns => ?_
    exact simulates_pure ⟨rfl,ha.inner.1,ha.inner.2,rfl⟩

include ha hnested in
lemma simulates_nestRule : Simulates (Left ts (pos + 1)) (nestRule d ts nested sc a)
      (RuleParser.nestRule d nested' sc (a.rule ts)) := by
  refine simulates_lift_bind fun _ => ?_
  refine simulates_lift_bind fun opening => ?_
  rw [selectors_eq]
  refine simulates_bind (simulates_of_reads (reads_ofExcept _)) ?_
  rintro sels _ rfl
  refine simulates_bind_left (hnested .style opening ha.inner) fun body stop hs => ?_
  exact simulates_pure ⟨rfl,le_trans ha.inner.1 hs.1,hs.2,rfl⟩

include ha in
lemma simulates_keyframesRule : Simulates (Left ts (pos + 1)) (keyframesRule d ts sc a)
      (RuleParser.keyframesRule d sc (a.rule ts)) := by
  refine simulates_lift_bind fun _ => ?_
  refine simulates_lift_bind fun opening => ?_
  refine simulates_lift_bind fun ⟨name,quoted⟩ => ?_
  refine simulates_bind_left (simulates_keyframes d ts opening ha.inner.2) fun frames stop hs => ?_
  exact simulates_pure ⟨rfl,by dsimp only; have := ha.inner; omega,hs.2,rfl⟩

lemma simulates_block (ha : CutAt ts pos a) (opening : Token) (stmt : List Declaration → Statement) :
    Simulates (Left ts (pos + 1)) (do
        let (ds,stop) ← declarationList d ts opening a.inner
        return (stmt ds,stop))
      (do
        let (ds,after) ← parseBlock d opening (ts.drop a.inner)
        return (stmt ds,after)) := by
  refine simulates_bind_left (simulates_declarationList d ts opening ha.inner.2) fun ds stop hs => ?_
  exact simulates_pure ⟨rfl,by dsimp only; have := ha.inner; omega,hs.2,rfl⟩

include ha in
lemma simulates_fontFaceRule : Simulates (Left ts (pos + 1)) (fontFaceRule d ts sc a)
      (RuleParser.fontFaceRule d sc (a.rule ts)) := by
  refine simulates_lift_bind fun _ => ?_
  refine simulates_lift_bind fun opening => ?_
  dsimp only
  rw [rule_prelude]
  split
  · exact simulates_throw _
  · exact simulates_block ha opening .fontFace

include ha in
lemma simulates_pageRule : Simulates (Left ts (pos + 1)) (pageRule d ts sc a) (RuleParser.pageRule d sc (a.rule ts)) := by
  refine simulates_lift_bind fun _ => ?_
  refine simulates_lift_bind fun opening => ?_
  exact simulates_block ha opening (.page (plainText a.prelude))

include ha in
lemma simulates_propertyRule : Simulates (Left ts (pos + 1)) (propertyRule d ts sc a)
      (RuleParser.propertyRule d sc (a.rule ts)) := by
  refine simulates_lift_bind fun _ => ?_
  refine simulates_lift_bind fun opening => ?_
  rw [rule_prelude]
  obtain _ | ⟨name,_ | _⟩ := dashedName? a.prelude
  · exact simulates_throw _
  · exact simulates_block ha opening (.property name)
  · exact simulates_throw _

include hd ha in
lemma simulates_importRule : Simulates (Left ts (pos + 1)) (importRule d ts sc a)
      (RuleParser.importRule d sc (a.rule ts)) := by
  refine simulates_lift_bind fun _ => ?_
  refine simulates_lift_bind fun _ => ?_
  refine simulates_bind (simulates_of_reads (reads_importSheet d.file (hd.sublist ha.sublist))) ?_
  rintro found _ rfl
  refine simulates_lift_bind fun stmt => ?_
  exact simulates_pure ⟨rfl,ha.inner.1,ha.inner.2,rfl⟩

include ha in
lemma simulates_namespaceRule : Simulates (Left ts (pos + 1)) (namespaceRule ts sc a)
      (RuleParser.namespaceRule sc (a.rule ts)) := by
  refine simulates_lift_bind fun _ => ?_
  refine simulates_lift_bind fun _ => ?_
  rw [namespaceOf_eq,pure_bind]
  refine simulates_lift_bind fun stmt => ?_
  exact simulates_pure ⟨rfl,ha.inner.1,ha.inner.2,rfl⟩

lemma simulates_requirePrelude {α : Type} {P : α → Prop} (r : AtRule) {found : Option α}
    (hf : ∀ x, found = some x → P x) :
    Simulates (fun x y => x = y ∧ P x) (lift (r.requirePrelude found)) (r.requirePrelude found) := by
  cases found with
  | none => exact simulates_throw _
  | some x => exact simulates_pure ⟨rfl,hf x rfl⟩

lemma sublist_of_dashedName? {prelude : List Token} (found : String × List Token)
    (h : dashedName? prelude = some found) : found.2.Sublist prelude := by
  cases prelude with
  | nil => cases h
  | cons t rest =>
    rw [dashedName?] at h
    split at h
    · cases h
      exact sublist_cons_self t rest
    · cases h

include hd ha in
lemma simulates_customMediaRule : Simulates (Left ts (pos + 1)) (customMediaRule d ts sc a)
      (RuleParser.customMediaRule d sc (a.rule ts)) := by
  refine simulates_lift_bind fun _ => ?_
  refine simulates_lift_bind fun _ => ?_
  refine simulates_bind (simulates_requirePrelude (a.rule ts) sublist_of_dashedName?) ?_
  rintro ⟨name,rest⟩ _ ⟨rfl,hr⟩
  dsimp only
  split
  · exact simulates_throw _
  · refine simulates_bind (simulates_of_reads (reads_mediaList d.file (hd.sublist (hr.trans ha.sublist)))) ?_
    rintro media _ rfl
    exact simulates_pure ⟨rfl,ha.inner.1,ha.inner.2,rfl⟩

include ha in
lemma simulates_unknownRule : Simulates (Left ts (pos + 1)) (unknownRule d ts a)
      (RuleParser.unknownRule d (a.rule ts)) := by
  refine simulates_bind (simulates_of_reads (reads_value d.file false a.prelude)) ?_
  rintro prelude _ rfl
  rw [rule_opening]
  cases ho : a.opening with
  | none => exact simulates_pure ⟨rfl,ha.inner.1,ha.inner.2,rfl⟩
  | some opening =>
    obtain ⟨hb,hg⟩ := ha.opening opening ho
    have hi := ha.inner
    have hop : opening.kind.opens := by rw [hb]; rfl
    have hbc : a.inner - 1 + 1 = a.inner := by omega
    dsimp only
    rw [pred_eq (by omega),pure_bind,matchingClose_eq hg hop,hbc,rule_inner]
    cases hs : splitClosing 1 (ts.drop a.inner) with
    | none => exact simulates_throw _
    | some ps =>
      obtain ⟨contents,after⟩ := ps
      obtain ⟨close,hc⟩ := eq_of_splitClosing hs
      have hl := congrArg List.length hc
      simp only [length_drop,length_append,length_cons] at hl
      have hsl : slice ts a.inner (a.inner + contents.length) = pure contents := by
        rw [slice_eq (by omega) (by omega),hc,Nat.add_sub_cancel_left,take_left]
      have haf : ts.drop (a.inner + contents.length + 1) = after := by
        rw [Nat.add_assoc,← drop_drop,hc,drop_length_add_append]; rfl
      dsimp only [Option.map_some]
      rw [hsl,pure_bind]
      refine simulates_bind (simulates_of_reads (reads_value d.file false contents)) ?_
      rintro block _ rfl
      exact simulates_pure ⟨rfl,by dsimp only; omega,by dsimp only; omega,haf⟩

include hd ha in
lemma simulates_statementRule : Simulates (Left ts (pos + 1)) (statementRule d ts sc a)
      (RuleParser.statementRule d sc (a.rule ts)) := by
  rw [statementRule,RuleParser.statementRule]
  split
  · exact simulates_keyframesRule ha
  split
  · exact simulates_fontFaceRule ha
  split
  · exact simulates_pageRule ha
  split
  · exact simulates_propertyRule ha
  split
  · exact simulates_importRule hd ha
  split
  · exact simulates_namespaceRule ha
  split
  · exact simulates_customMediaRule hd ha
  · exact simulates_unknownRule ha

include hd ha hnested in
lemma simulates_atRuleNamed : Simulates (Left ts (pos + 1)) (atRuleNamed d ts nested sc a)
      (RuleParser.atRuleNamed d nested' sc (a.rule ts)) := by
  have hst : Simulates (Left ts (pos + 1)) (statementRule d ts sc a) (RuleParser.statementRule d sc (a.rule ts)) :=
    simulates_statementRule hd ha
  rw [atRuleNamed,RuleParser.atRuleNamed]
  split
  · exact simulates_mediaRule hd ha hnested
  split
  · exact simulates_supportsRule ha hnested
  split
  · exact simulates_layerRule ha hnested
  split
  · exact simulates_nestRule ha hnested
  split
  · exact simulates_pure ⟨rfl,ha.inner.1,ha.inner.2,rfl⟩
  · refine simulates_bind_left hst fun stmt stop hs => ?_
    exact simulates_pure ⟨rfl,hs.1,hs.2,rfl⟩

include hd hnested in
lemma simulates_atRule {t : Token} (ht : ts[pos]? = some t) : Simulates (Left ts (pos + 1)) (atRule d ts nested sc pos)
      (RuleParser.atRule d nested' sc t (ts.drop (pos + 1))) := by
  obtain ⟨a,hc,ha,hr⟩ := cut_spec ht
  rw [atRule,hc,pure_bind,RuleParser.atRule,← hr]
  refine simulates_tryCatch (simulates_atRuleNamed hd ha hnested) fun fault => ?_
  split
  · exact simulates_throw fault
  · exact simulates_lift_bind fun _ =>
      simulates_pure ⟨rfl,ha.after.1,ha.after.2,rfl⟩

end
end Css.Cursor
