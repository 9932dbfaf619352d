import Css.Proofs.Rule.Holds
import Css.Proofs.Rule.Steps

/-!
# What a parser ensures about all parts of rules

A property of the parts of rules that each part has as it is parsed is one of all rules of a source. The
faults that a parser notes are those of the tokens that it goes over.
-/
namespace Css
open List Token ParseM RuleParser Rule.Holds Selector Declaration Rule StyleSheet Checks Value MediaList

def Statement.definesNothing : Statement → Bool
  | customMedia _ media => media.isEmpty
  | _ => false

def Statement.frames : Statement → List Keyframe
  | keyframes _ _ _ frames => frames
  | _ => []

structure Statement.IsParsed (d : Dialect) (all : List Token) (sc : Scope) (s : Statement) :
    Prop where
  isAllowed : s.isAllowed sc = true
  areNamed : Declaration.areNamed s.declarations = true
  definesSome : s.definesNothing = false
  areParsed : Keyframe.AreParsed d all s.frames

/-- Each part is as asked when it has been parsed. Declarations in a group that is inside of a style
rule become a part of their own. -/
structure Checks.Established (c : Checks) (d : Dialect) (all : List Token) : Prop where
  style : ∀ sc tokens selectors,
    Selector.parseAll (selectorContext d sc) tokens = .ok selectors →
      ∀ declarations composes location, Declaration.areNamed declarations = true →
        c.block sc ⟨selectors,declarations,composes,location⟩
  nest : ∀ tokens selectors, Selector.parseAll (nestContext d) tokens = .ok selectors →
    ∀ declarations composes location, Declaration.areNamed declarations = true →
      c.block .style ⟨selectors,declarations,composes,location⟩
  enclosing : ∀ declarations composes location, Declaration.areNamed declarations = true →
    c.block .style ⟨[[.nesting]],declarations,composes,location⟩
  group : ∀ sc g, c.group sc g
  statement : ∀ sc s, s.IsParsed d all sc → c.statement sc s

structure Body.Holds (c : Checks) (sc : Scope) (b : Body) : Prop where
  rules : AllHold c sc b.rules
  areNamed : Declaration.areNamed b.declarations = true
  isEmpty : sc = .style ∨ (b.declarations.isEmpty && b.composes.isEmpty) = true

lemma MediaList.ne_nil_of_parse {file : SourceFile} {ts : List Token} {media : MediaList}
    (ht : (trimBlank ts).isEmpty = false) (h : parse file ts = .ok media) : media ≠ [] := by
  have hl := (mem_of_mapM_ok h).1
  rw [commaParts,ht] at hl
  rintro rfl
  exact Cursor.partsFrom_ne_nil 0 _ (length_eq_zero_iff.mp hl.symm)

namespace RuleParser

/-- An at-rule that was cut off the front of tokens. -/
structure AtRule.IsCut (a : AtRule) (ts : List Token) : Prop where
  inner : a.inner <:+ ts
  after : a.after = if a.opening.isSome then dropGroup a.inner else a.inner
  along : ∀ {size : Nat} {all : List Token} {fault : Fault},
    fault.Blames (a.keyword :: a.prelude) → Along size all ts [fault] a.after

lemma AtRule.IsCut.afterSuffix {a : AtRule} {ts : List Token} (h : a.IsCut ts) : a.after <:+ ts := by
  rw [h.after]
  split
  · exact (dropGroup_suffix a.inner).trans h.inner
  · exact h.inner

lemma AtRule.isCut (keyword : Token) (rest : List Token) :
    (cut keyword rest).IsCut (keyword :: rest) := by
  have happ := splitBefore_append isPreludeEnd 0 rest
  unfold cut
  generalize splitBefore isPreludeEnd 0 rest = found at happ
  obtain ⟨part,after⟩ := found
  subst happ
  have ha {size : Nat} {all us : List Token} {fault : Fault}
      (hf : fault.Blames (keyword :: trimBlank part)) (hu : us <:+ after) :
      Along size all (keyword :: (part ++ after)) [fault] us := by
    refine along_of_blames (hf.mono ?_) (suffix_refl (keyword :: part ++ after)) hu
    exact cons_subset_cons keyword (Cursor.trimBlank_sublist part).subset
  have hs : after <:+ keyword :: (part ++ after) := (suffix_append part after).trans (suffix_cons keyword _)
  cases after with
  | nil => exact ⟨nil_suffix,rfl,fun hf => ha hf nil_suffix⟩
  | cons t inner =>
    have hi := suffix_cons t inner
    dsimp only
    split
    · exact ⟨hi.trans hs,rfl,fun hf => ha hf ((dropGroup_suffix inner).trans hi)⟩
    split
    · exact ⟨hi.trans hs,rfl,fun hf => ha hf hi⟩
    · exact ⟨hs,rfl,fun hf => ha hf (suffix_refl _)⟩

section
variable {α : Type} {size : Nat} {all ts : List Token} {a : AtRule} (ha : a.IsCut ts)
include ha

lemma along_keywordOf {fault : Fault} (h : fault.span = a.keyword.span) :
    fault.isUnclosedBlock ∨ Along size all ts [fault] a.after :=
  .inr (ha.along (.inr ⟨a.keyword,mem_cons_self,congrArg Span.start h⟩))

lemma steps_require (isAllowed : Bool) :
    Steps size all ts a.after (fun _ rest => rest = ts ∧ isAllowed = true) (a.require isAllowed)
      (a.require isAllowed) := by
  cases isAllowed with
  | true => exact steps_pure ⟨rfl,rfl⟩ (suffix_refl ts)
  | false => exact steps_throw (along_keywordOf ha rfl)

lemma steps_requireBlock : Steps size all ts a.after (fun t rest => rest = ts ∧ a.opening = some t) a.requireBlock
      a.requireBlock := by
  unfold AtRule.requireBlock
  split
  · exact steps_pure ⟨rfl,‹_›⟩ (suffix_refl ts)
  · exact steps_throw (along_keywordOf ha rfl)

lemma steps_refuseBlock :
    Steps size all ts a.after (fun _ rest => rest = ts ∧ True) a.refuseBlock a.refuseBlock := by
  unfold AtRule.refuseBlock
  split
  · exact steps_throw (along_keywordOf ha rfl)
  · exact steps_pure ⟨rfl,trivial⟩ (suffix_refl ts)

lemma steps_requirePrelude (found : Option α) :
    Steps size all ts a.after (fun b rest => rest = ts ∧ found = some b) (a.requirePrelude found)
      (a.requirePrelude found) := by
  cases found with
  | none => exact steps_throw (along_keywordOf ha rfl)
  | some b => exact steps_pure ⟨rfl,rfl⟩ (suffix_refl ts)

omit ha in
lemma steps_ofExcept {x : Except Fault α} (h : ∀ fault, x = .error fault → Along size all ts [fault] a.after) :
    Steps size all ts a.after (fun b rest => rest = ts ∧ x = .ok b) (MonadExcept.ofExcept x)
      (MonadExcept.ofExcept x) := by
  cases x with
  | error fault => exact steps_throw (.inr (h fault rfl))
  | ok b => exact steps_pure ⟨rfl,rfl⟩ (suffix_refl ts)

lemma steps_ofPrelude {x : Except Fault α} (h : Blamed (a.keyword :: a.prelude) x) :
    Steps size all ts a.after (fun b rest => rest = ts ∧ x = .ok b) (MonadExcept.ofExcept x)
      (MonadExcept.ofExcept x) :=
  steps_ofExcept fun _ hf => ha.along (h.error hf)

end

section
variable (d : Dialect) (sc : Scope) {size : Nat} {all ts : List Token} {a : AtRule} (ha : a.IsCut ts) (hts : ts <:+ all)
include ha hts

lemma steps_keyframesRule : Steps size all ts a.after (Leaves (·.IsParsed d all sc))
    (keyframesRule (d.recovering false) sc a) (keyframesRule (d.recovering true) sc a) := by
  refine steps_check hts (steps_require ha _) fun _ hs => ?_
  refine steps_check hts (steps_requireBlock ha) fun opening _ => ?_
  refine steps_check hts (steps_requirePrelude ha _) fun name _ => ?_
  refine steps_bind hts ((Keyframe.steps_parseBlock d opening (ha.inner.trans hts)).mono ha.inner) ?_
  rintro found rest - ⟨hf,rfl⟩
  have hnamed : areNamed (found.1.flatMap Keyframe.declarations) = true := by
    rw [areNamed,all_flatMap,all_eq_true]
    exact fun frame hframe => (hf frame hframe).areNamed
  exact steps_pure ⟨⟨hs,hnamed,rfl,hf⟩,rfl⟩ (suffix_refl _)

lemma steps_declarations (s : List Declaration → Statement)
    (h : ∀ declarations, areNamed declarations = true → (s declarations).IsParsed d all sc)
    (opening : Token) : Steps size all ts a.after (Leaves (·.IsParsed d all sc)) (do
        let (declarations,after) ← parseBlock (d.recovering false) opening a.inner
        return (s declarations,after))
      (do
        let (declarations,after) ← parseBlock (d.recovering true) opening a.inner
        return (s declarations,after)) := by
  refine steps_bind hts ((steps_parseBlock d opening (ha.inner.trans hts)).mono ha.inner) ?_
  rintro found rest - ⟨hf,rfl⟩
  exact steps_pure ⟨h _ hf,rfl⟩ (suffix_refl _)

lemma steps_fontFaceRule : Steps size all ts a.after (Leaves (·.IsParsed d all sc))
    (fontFaceRule (d.recovering false) sc a) (fontFaceRule (d.recovering true) sc a) := by
  refine steps_check hts (steps_require ha _) fun _ hs => ?_
  refine steps_check hts (steps_requireBlock ha) fun opening _ => ?_
  split
  · exact steps_throw (along_keywordOf ha rfl)
  · exact steps_declarations d sc ha hts .fontFace (fun _ hd => ⟨hs,hd,rfl,forall_mem_nil _⟩) opening

lemma steps_pageRule : Steps size all ts a.after (Leaves (·.IsParsed d all sc))
    (pageRule (d.recovering false) sc a) (pageRule (d.recovering true) sc a) := by
  refine steps_check hts (steps_require ha _) fun _ hs => ?_
  refine steps_check hts (steps_requireBlock ha) fun opening _ => ?_
  exact steps_declarations d sc ha hts (.page _) (fun _ hd => ⟨hs,hd,rfl,forall_mem_nil _⟩) opening

lemma steps_propertyRule : Steps size all ts a.after (Leaves (·.IsParsed d all sc))
    (propertyRule (d.recovering false) sc a) (propertyRule (d.recovering true) sc a) := by
  refine steps_check hts (steps_require ha _) fun _ hs => ?_
  refine steps_check hts (steps_requireBlock ha) fun opening _ => ?_
  split
  · exact steps_declarations d sc ha hts (.property _) (fun _ hd => ⟨hs,hd,rfl,forall_mem_nil _⟩) opening
  · exact steps_throw (along_keywordOf ha rfl)

lemma steps_importRule : Steps size all ts a.after (Leaves (·.IsParsed d all sc))
    (importRule (d.recovering false) sc a) (importRule (d.recovering true) sc a) := by
  refine steps_check hts (steps_require ha _) fun _ hsc => ?_
  refine steps_check hts (steps_refuseBlock ha) fun _ _ => ?_
  refine steps_check hts (steps_ofPrelude ha (Prelude.blamed_importSheet? d.file ?_)) fun found hf => ?_
  · exact subset_cons_self _ _
  refine steps_check hts (steps_requirePrelude ha found) fun s hs => ?_
  subst hs
  obtain ⟨url,layer,supports,media,rfl⟩ := isImport_of_importSheet? hf
  exact steps_pure ⟨⟨hsc,rfl,rfl,forall_mem_nil _⟩,rfl⟩ ha.inner

lemma steps_namespaceRule : Steps size all ts a.after (Leaves (·.IsParsed d all sc))
    (namespaceRule sc a) (namespaceRule sc a) := by
  refine steps_check hts (steps_require ha _) fun _ hsc => ?_
  refine steps_check hts (steps_refuseBlock ha) fun _ _ => ?_
  refine steps_check hts (steps_requirePrelude ha _) fun s hs => ?_
  obtain ⟨name,url,rfl⟩ := isNamespace_of_namespaceOf? hs
  exact steps_pure ⟨⟨hsc,rfl,rfl,forall_mem_nil _⟩,rfl⟩ ha.inner

lemma steps_customMediaRule : Steps size all ts a.after (Leaves (·.IsParsed d all sc))
    (customMediaRule (d.recovering false) sc a) (customMediaRule (d.recovering true) sc a) := by
  refine steps_check hts (steps_require ha _) fun _ hs => ?_
  refine steps_check hts (steps_refuseBlock ha) fun _ _ => ?_
  refine steps_check hts (steps_requirePrelude ha _) fun ⟨name,rest⟩ hn => ?_
  dsimp only
  split
  · exact steps_throw (along_keywordOf ha rfl)
  · rename_i hr
    have hrest : rest ⊆ a.prelude := by
      unfold Prelude.dashedName? at hn
      split at hn
      · rename_i t more hp
        split at hn
        · cases hn
          exact hp ▸ subset_cons_self t rest
        · cases hn
      · cases hn
    have hrest := subset_cons_of_subset a.keyword hrest
    refine steps_check hts (steps_ofPrelude ha (blamed_parse d.file hrest)) fun media hm => ?_
    have hne := ne_nil_of_parse (Bool.eq_false_iff.mpr hr) hm
    exact steps_pure ⟨⟨hs,rfl,isEmpty_eq_false_iff.mpr hne,forall_mem_nil _⟩,rfl⟩ ha.inner

lemma steps_unknownRule : Steps size all ts a.after (Leaves (·.IsParsed d all sc))
    (unknownRule (d.recovering false) a) (unknownRule (d.recovering true) a) := by
  have hp := blamed_parse d.file false (subset_cons_self a.keyword a.prelude)
  refine steps_check hts (steps_ofPrelude ha hp) fun value _ => ?_
  split
  · exact steps_pure ⟨⟨rfl,rfl,rfl,forall_mem_nil _⟩,rfl⟩ ha.inner
  · rename_i opening ho
    split
    · exact steps_throw (.inl rfl)
    · rename_i contents after hc
      have hafter : a.after = after := by
        rw [ha.after,ho,Option.isSome_some,if_pos rfl,dropGroup,hc]
      obtain ⟨close,hi⟩ := eq_of_splitClosing hc
      have hinner := hi ▸ ha.inner
      refine steps_check hts (steps_ofExcept fun fault hf => ?_) fun block _ => ?_
      · have hb := (blamed_parse d.file false (Subset.refl contents)).error hf
        exact along_of_blames hb hinner (hafter ▸ suffix_cons close after)
      · refine steps_pure ⟨⟨rfl,rfl,rfl,forall_mem_nil _⟩,rfl⟩ ?_
        exact ((suffix_cons close after).trans (suffix_append contents _)).trans hinner

lemma steps_statementRule : Steps size all ts a.after (Leaves (·.IsParsed d all sc))
    (statementRule (d.recovering false) sc a) (statementRule (d.recovering true) sc a) := by
  unfold statementRule
  split
  · exact steps_keyframesRule d sc ha hts
  split
  · exact steps_fontFaceRule d sc ha hts
  split
  · exact steps_pageRule d sc ha hts
  split
  · exact steps_propertyRule d sc ha hts
  split
  · exact steps_importRule d sc ha hts
  split
  · exact steps_namespaceRule d sc ha hts
  have hs : ∀ lenient, (d.recovering lenient).customMedia = d.customMedia := fun _ => rfl
  rw [hs,hs]
  split
  · exact steps_customMediaRule d sc ha hts
  · exact steps_unknownRule d sc ha hts

end

variable {c : Checks} {d : Dialect} {all ts stop : List Token}

/-- Parsers of a body that take the same steps until there is a fault. -/
def Nested.Steps (c : Checks) (d : Dialect) (all : List Token) (strict lenient : Nested) : Prop :=
  ∀ sc opening ts stop, ts <:+ all → stop <:+ all → ParseM.Steps d.file.size all ts stop
    (Leaves (·.Holds c sc)) (strict sc opening ts) (lenient sc opening ts)

lemma allHold_groupRules (hc : c.Established d all) {sc : Scope} {b : Body}
    (h : b.Holds c sc) (loc : Location) : AllHold c sc (b.groupRules loc) := by
  unfold Body.groupRules
  split
  · exact h.rules
  · rename_i hs
    rcases h.isEmpty with rfl | he
    · exact ⟨⟨hc.enclosing _ _ _ h.areNamed,trivial⟩,h.rules⟩
    · exact absurd he hs

section
variable (hc : c.Established d all) {strict lenient : Nested} (hn : Nested.Steps c d all strict lenient) (sc : Scope)
include hc hn

omit hc hn in
lemma steps_skip {fault : Fault} {us : List Token} (hts : ts <:+ all) (h : Along d.file.size all ts [fault] us) :
    ParseM.Steps d.file.size all ts stop (Leaves (AllHold c sc)) (do
        (d.recovering false).recover fault
        return ([],us))
      (do
        (d.recovering true).recover fault
        return ([],us)) := by
  refine steps_bind hts (steps_recover d h) ?_
  rintro _ us - rfl
  exact steps_pure ⟨trivial,rfl⟩ (suffix_refl us)

lemma steps_styleRule {first : Token} {rest : List Token} (hts : first :: rest <:+ all)
    (hstop : stop <:+ all) : ParseM.Steps d.file.size all (first :: rest) stop
      (Leaves (AllHold c sc)) (styleRule (d.recovering false) strict sc first rest)
      (styleRule (d.recovering true) lenient sc first rest) := by
  have happ := splitBefore_append (isSelectorEnd sc) 0 (first :: rest)
  unfold styleRule
  dsimp only
  generalize splitBefore (isSelectorEnd sc) 0 (first :: rest) = found at happ
  obtain ⟨part,after⟩ := found
  rw [← happ] at hts ⊢
  cases after with
  | nil => exact steps_throw (.inr (.back rfl hstop (.skip (suffix_refl stop))))
  | cons t inner =>
    have hp := suffix_refl (part ++ t :: inner)
    have ht : t :: inner <:+ part ++ t :: inner := suffix_append part _
    have hi := suffix_cons t inner
    have hsel := blamed_parseAll (selectorContext d sc) (Subset.refl part)
    dsimp only
    split
    · have hctx (lenient : Bool) :
          selectorContext (d.recovering lenient) sc = selectorContext d sc := rfl
      rw [hctx,hctx]
      split
      · rename_i fault hs
        exact steps_skip sc hts (along_of_blames (hsel.error hs) hp ((dropGroup_suffix inner).trans hi))
      · rename_i sels hs
        have hb := hn .style t inner stop ((hi.trans ht).trans hts) hstop
        refine steps_bind hts (hb.mono (hi.trans ht)) ?_
        rintro found rest - ⟨hb,rfl⟩
        exact steps_pure ⟨⟨⟨hc.style sc _ sels hs _ _ _ hb.areNamed,hb.rules⟩,trivial⟩,rfl⟩ (suffix_refl _)
    · refine steps_skip sc hts ?_
      have hu : (if t.kind == .semicolon then inner else t :: inner) <:+ t :: inner := by
        split
        · exact hi
        · exact suffix_refl _
      split
      · exact along_of_blames (marks_spanOf (Subset.refl part)) hp hu
      · exact along_keyword ht rfl hu

lemma steps_groupRule {a : AtRule} (ha : a.IsCut ts) (hts : ts <:+ all)
    (opening : Token) (group : Group) : ParseM.Steps d.file.size all ts a.after
      (Leaves (AllHold c sc)) (groupRule (d.recovering false) strict sc a opening group)
      (groupRule (d.recovering true) lenient sc a opening group) := by
  have hb := hn sc.inside opening a.inner a.after (ha.inner.trans hts) (ha.afterSuffix.trans hts)
  refine steps_bind (P := Leaves (AllHold c sc.inside)) hts ?_ ?_
  · refine steps_bind hts (hb.mono ha.inner) ?_
    rintro found rest - ⟨hb,rfl⟩
    exact steps_pure ⟨allHold_groupRules hc hb _,rfl⟩ (suffix_refl _)
  · rintro found rest - ⟨hr,rfl⟩
    exact steps_pure ⟨⟨⟨hc.group sc group,hr⟩,trivial⟩,rfl⟩ (suffix_refl _)

lemma steps_nestRule {a : AtRule} (ha : a.IsCut ts) (hts : ts <:+ all) :
    ParseM.Steps d.file.size all ts a.after (Leaves (AllHold c sc))
      (nestRule (d.recovering false) strict sc a) (nestRule (d.recovering true) lenient sc a) := by
  refine steps_check hts (steps_require ha _) fun _ hs => ?_
  refine steps_check hts (steps_requireBlock ha) fun opening _ => ?_
  have hsel := blamed_parseAll (nestContext d) (subset_cons_self a.keyword a.prelude)
  refine steps_check hts (steps_ofPrelude ha hsel) fun sels hsels => ?_
  have hb := hn .style opening a.inner a.after (ha.inner.trans hts) (ha.afterSuffix.trans hts)
  refine steps_bind hts (hb.mono ha.inner) ?_
  rintro found rest - ⟨hb,rfl⟩
  cases eq_of_beq hs
  exact steps_pure ⟨⟨⟨rfl,hc.nest _ sels hsels _ _ _ hb.areNamed,hb.rules⟩,trivial⟩,rfl⟩ (suffix_refl _)

lemma steps_atRuleNamed {a : AtRule} (ha : a.IsCut ts) (hts : ts <:+ all) : ParseM.Steps d.file.size all ts a.after
      (Leaves (AllHold c sc)) (atRuleNamed (d.recovering false) strict sc a)
      (atRuleNamed (d.recovering true) lenient sc a) := by
  have hg := steps_groupRule hc hn sc ha hts
  have hp := subset_cons_self a.keyword a.prelude
  unfold atRuleNamed
  split
  · refine steps_check hts (steps_requireBlock ha) fun opening _ => ?_
    exact steps_check hts (steps_ofPrelude ha (blamed_parse d.file hp)) fun _ _ => hg opening _
  split
  · refine steps_check hts (steps_requireBlock ha) fun opening _ => ?_
    refine steps_check hts (steps_ofPrelude ha (blamed_parse d.file false hp)) fun cond _ => ?_
    split
    · exact steps_throw (along_keywordOf ha rfl)
    · exact hg opening _
  split
  · unfold layerRule
    split
    · split
      · exact hg _ _
      · exact steps_check hts (steps_requirePrelude ha _) fun _ _ => hg _ _
    · refine steps_check hts (steps_requirePrelude ha _) fun names _ => ?_
      exact steps_pure ⟨⟨hc.statement sc (.layers names) ⟨rfl,rfl,rfl,forall_mem_nil _⟩,trivial⟩,rfl⟩ ha.inner
  split
  · exact steps_nestRule hc hn sc ha hts
  split
  · exact steps_pure ⟨trivial,rfl⟩ ha.inner
  · refine steps_bind hts (steps_statementRule d sc ha hts) ?_
    rintro found rest - ⟨hf,rfl⟩
    exact steps_pure ⟨⟨hc.statement sc _ hf,trivial⟩,rfl⟩ (suffix_refl _)

lemma steps_atRule {keyword : Token} {rest : List Token} (hts : keyword :: rest <:+ all) :
    ParseM.Steps d.file.size all (keyword :: rest) stop (Leaves (AllHold c sc))
      (atRule (d.recovering false) strict sc keyword rest)
      (atRule (d.recovering true) lenient sc keyword rest) := by
  have ha := AtRule.isCut keyword rest
  refine runs_tryCatch (steps_atRuleNamed hc hn sc ha hts) ?_ (fun _ _ h => h) ?_
  · intro fault
    split <;> rfl
  · intro fault more h
    split
    · exact runs_throw (.inl ‹_›)
    · rename_i hf
      exact fun faults => ⟨.ok ([],_),[fault],rfl,rfl,_,⟨trivial,rfl⟩,h.resolve_left hf⟩

end

lemma holds_addEntry {entry : Option Declaration.Entry} {b : Body}
    (he : ∀ declaration, entry = some (.declaration declaration) → declaration.isNamed)
    (hb : b.Holds c .style) : (b.addEntry entry).Holds c .style := by
  unfold Body.addEntry
  split
  · refine ⟨hb.rules,?_,.inl rfl⟩
    rw [areNamed,all_cons,he _ rfl]
    exact hb.areNamed
  · exact ⟨hb.rules,hb.areNamed,.inl rfl⟩
  · exact hb

lemma steps_body (hc : c.Established d all) (fuel : Nat) (sc : Scope) (opening : Option Token)
    (hts : ts <:+ all) (hstop : stop <:+ all) :
    ParseM.Steps d.file.size all ts stop (Leaves (·.Holds c sc)) (body (d.recovering false) fuel sc opening ts)
      (body (d.recovering true) fuel sc opening ts) := by
  induction fuel generalizing sc opening ts stop with
  | zero => exact steps_throw (.inr (.back rfl hstop (.skip (suffix_refl stop))))
  | succ fuel ih =>
    have hns : Nested.Steps c d all (fun sc opening => body (d.recovering false) fuel sc (some opening))
        (fun sc opening => body (d.recovering true) fuel sc (some opening)) :=
      fun sc opening _ _ => ih sc (some opening)
    have hrules {us : List Token} {step step' : ParseM (List Rule × List Token)} (hu : us <:+ all)
        (hs : ParseM.Steps d.file.size all us stop (Leaves (AllHold c sc)) step step') :
        ParseM.Steps d.file.size all us stop (Leaves (·.Holds c sc))
          (step >>= fun found => body (d.recovering false) fuel sc opening found.2 >>= fun more =>
            pure (more.1.addRules found.1,more.2))
          (step' >>= fun found => body (d.recovering true) fuel sc opening found.2 >>= fun more =>
            pure (more.1.addRules found.1,more.2)) := by
      refine steps_bind hu hs ?_
      rintro found rest hr ⟨hf,rfl⟩
      refine steps_bind hr (ih sc opening hr hstop) ?_
      rintro more rest - ⟨hm,rfl⟩
      exact steps_pure ⟨⟨allHold_append.mpr ⟨hf,hm.rules⟩,hm.areNamed,hm.isEmpty⟩,rfl⟩ (suffix_refl _)
    cases ts with
    | nil =>
      cases opening with
      | none => exact steps_pure ⟨⟨trivial,rfl,.inr rfl⟩,rfl⟩ (suffix_refl _)
      | some t => exact steps_throw (.inl rfl)
    | cons t rest =>
      have hs := suffix_cons t rest
      have hrest := (ih sc opening (hs.trans hts) hstop).mono hs
      unfold body
      dsimp only
      split
      · exact hrest
      · exact hrest
      · split
        · exact steps_pure ⟨⟨trivial,rfl,.inr rfl⟩,rfl⟩ hs
        · refine steps_bind hts (steps_recover d (along_keyword (suffix_refl _) rfl hs)) ?_
          rintro _ us hr rfl
          exact ih sc opening hr hstop
      · exact hrules hts (steps_atRule hc hns sc hts)
      · split
        · exact hrest
        split
        · rename_i hd
          simp only [Bool.and_eq_true,beq_iff_eq] at hd
          obtain ⟨⟨rfl,-⟩,-⟩ := hd
          have hp : t :: (splitBefore isEnd 0 rest).1 ++
              (splitBefore isEnd 0 rest).2 <:+ t :: rest :=
            ⟨[],congrArg (t :: ·) (splitBefore_append ..)⟩
          refine steps_bind hts (steps_attempt d hts (blamed_parseEntry d t _) hp) ?_
          rintro entry us hr ⟨rfl,he⟩
          refine steps_bind hr (ih .style opening hr hstop) ?_
          rintro more rest - ⟨hm,rfl⟩
          refine steps_pure ⟨holds_addEntry ?_ hm,rfl⟩ (suffix_refl _)
          rintro declaration rfl
          exact isNamed_of_parseEntry (he _ rfl)
        · exact hrules hts (steps_styleRule hc hns sc hts hstop)

end RuleParser

/-- What both runs of a parser give, and the order in which the lenient one notes its faults. -/
lemma Rule.runs_parse {c : Checks} {d : Dialect} {source : String} (hc : c.Established d (scanRules source)) :
    Runs (parse (d.recovering false) source) (parse (d.recovering true) source) fun r more =>
      ∀ rules, r = .ok rules → AllHold c .top rules ∧
        ∃ rest, Along d.file.size (scanRules source) (scanRules source) more rest := by
  have hs := suffix_refl (scanRules source)
  refine runs_bind (steps_body hc _ .top none hs hs) (by rintro _ _ _ _ ⟨⟩) fun found more h => ?_
  obtain ⟨rest,hf,ha⟩ := h
  refine runs_pure ?_
  rintro _ ⟨⟩
  rw [append_nil]
  exact ⟨hf.1.rules,rest,ha⟩

lemma Rule.parsed_of_run {c : Checks} {d : Dialect} {source : String}
    (hc : c.Established d (scanRules source)) {rs : List Rule} {faults : List Fault}
    (h : (parse d source).run.run [] = (.ok rs,faults)) :
    AllHold c .top rs ∧
      ∃ rest, Along d.file.size (scanRules source) (scanRules source) faults rest := by
  obtain ⟨r,more,hlenient,hstrict,hr⟩ := runs_parse hc []
  have hd : d = d.recovering d.lenient := rfl
  cases hl : d.lenient with
  | true =>
    rw [hd,hl,hlenient] at h; cases h
    exact hr rs rfl
  | false =>
    rw [hd,hl,hstrict] at h
    cases more with
    | nil =>
      cases h
      exact hr rs rfl
    | cons first more => cases h

lemma Checks.established_parsed (d : Dialect) (all : List Token) : parsed.Established d all where
  style _ _ _ h _ _ _ hd := ⟨areScoped_selectors h,hd⟩
  nest _ _ h _ _ _ hd := ⟨areScoped_nest h,hd⟩
  enclosing _ _ _ hd := ⟨rfl,hd⟩
  group _ _ := trivial
  statement _ _ h := ⟨h.isAllowed,h.areNamed⟩

namespace StyleSheet
variable {src : String} {opts : ParseOptions} {sheet : StyleSheet}

lemma allHold_of_established {c : Checks}
    (hc : c.Established (dialect (SourceFile.ofText opts.filename src) opts) (scanRules src))
    (h : parse src opts = .ok sheet) : AllHold c .top sheet.rules := by
  obtain ⟨rules,faults,hr,rfl⟩ := parse_ok h
  exact (parsed_of_run hc hr).1

lemma allHold_rules (h : parse src opts = .ok sheet) :
    AllHold parsed .top sheet.rules :=
  allHold_of_established (established_parsed _ _) h

lemma allScoped_rules (h : parse src opts = .ok sheet) :
    isScoped.allScoped false sheet.rules :=
  allScoped_of_allHold sheet.rules .top (allHold_scoped (allHold_rules h))

end StyleSheet
end Css
