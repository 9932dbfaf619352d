import Css.Media.Range
import Css.Proofs.Media.Grammar
import Css.Transform.CustomMedia

/-!
# Media queries that come from a source

Media queries are parsed, the custom media queries in them are replaced by what they stand for, and
comparisons are replaced by plain features.
-/
namespace Css
open List Nat Option MediaCondition CustomMedia
namespace CustomMedia

lemma isSound_of_soleCondition? {ms : MediaList} {c : MediaCondition} (hm : ms.IsSound)
    (h : soleCondition? ms = some c) : c.IsSound := by
  unfold soleCondition? at h
  split at h
  · cases h
    cases hm _ mem_cons_self with
    | untyped hc => exact hc
  · cases h

section
variable {lookup : String → Except TransformCause MediaList}

mutual

lemma isSound_expandCondition (hlookup : ∀ name ms, lookup name = .ok ms → ms.IsSound) :
    (c : MediaCondition) → c.IsSound → {c' : MediaCondition} → expandCondition lookup c = .ok c' → c'.IsSound
  | .feature f, hc, c', h => by
    unfold expandCondition at h
    split at h
    · cases h
      exact hc
    · obtain ⟨ms,hm,h⟩ := ok_of_bind_ok h
      split at h
      · rename_i c hs
        cases h
        exact isSound_of_soleCondition? (hlookup _ ms hm) hs
      · cases h
  | .negation c, .negation hc, c', h => by
    obtain ⟨d,hd,h⟩ := ok_of_bind_ok h
    cases h
    exact .negation (isSound_expandCondition hlookup c hc hd)
  | .operation con cs, .operation hl hcs, c', h => by
    obtain ⟨ds,hds,h⟩ := ok_of_bind_ok h
    cases h
    obtain ⟨ha,heq⟩ := isSound_expandAll hlookup cs hcs hds
    exact .operation (heq ▸ hl) ha
  | .unknown text, hc, c', h => by
    cases h
    exact hc

lemma isSound_expandAll (hlookup : ∀ name ms, lookup name = .ok ms → ms.IsSound) :
    (cs : List MediaCondition) → (∀ c ∈ cs, c.IsSound) → {cs' : List MediaCondition} →
      expandCondition.expandAll lookup cs = .ok cs' →
      (∀ c ∈ cs', c.IsSound) ∧ cs.length = cs'.length
  | [], _, cs', h => by
    cases h
    exact ⟨forall_mem_nil _,rfl⟩
  | c :: cs, hcs, cs', h => by
    obtain ⟨hc,hcs⟩ := forall_mem_cons.mp hcs
    obtain ⟨d,ds,hd,hds,rfl⟩ := ok_of_bind₂_ok h
    obtain ⟨ha,heq⟩ := isSound_expandAll hlookup cs hcs hds
    exact ⟨forall_mem_cons.mpr ⟨isSound_expandCondition hlookup c hc hd,ha⟩,congrArg (· + 1) heq⟩

end

variable (hlookup : ∀ name ms, lookup name = .ok ms → ms.IsSound)

include hlookup

lemma isSound_expandQuery {q : MediaQuery} {ms : MediaList} (hq : q.IsSound)
    (h : expandQuery lookup q = .ok ms) : ms.IsSound := by
  unfold expandQuery at h
  split at h
  · exact hlookup _ ms h
  · split at h
    · cases h
      exact forall_mem_singleton.mpr hq
    · rename_i c hcn
      obtain ⟨c',hc',h⟩ := ok_of_bind_ok h
      cases h
      rw [MediaList.IsSound,forall_mem_singleton]
      cases hq with
      | typed hn hw hr hs =>
        have hc := isSound_expandCondition hlookup c (hs c hcn) hc'
        exact .typed hn hw hr fun d hd => some.inj hd ▸ hc
      | untyped hc =>
        cases hcn
        exact .untyped (isSound_expandCondition hlookup c hc hc')
      | negated hc =>
        cases hcn
        obtain ⟨d,hd,hc'⟩ := ok_of_bind_ok hc'
        cases hc'
        exact .negated (isSound_expandCondition hlookup _ hc hd)

lemma isSound_expandList {ms media' : MediaList} (hm : ms.IsSound)
    (h : expandList lookup ms = .ok media') : media'.IsSound := by
  induction ms generalizing media' with
  | nil =>
    cases h
    exact forall_mem_nil _
  | cons q ms ih =>
    obtain ⟨hq,hm⟩ := forall_mem_cons.mp hm
    obtain ⟨first,rest,hf,hr,rfl⟩ := ok_of_bind₂_ok h
    exact forall_mem_append.mpr ⟨isSound_expandQuery hlookup hq hf,ih hm hr⟩

end

lemma isSound_lookup {defs : MediaDefinitions} (hdf : ∀ d ∈ defs, d.2.IsSound)
    {entered : List String} {name : String} {ms : MediaList}
    (h : lookup defs entered name = .ok ms) : ms.IsSound := by
  induction hn : defs.length using Nat.strongRecOn generalizing defs entered name ms with
  | ind n ih =>
    unfold lookup at h
    split at h
    · rename_i defined hde
      have hl := length_setAside_lt hde
      have ho : ∀ d ∈ setAside defs name, d.2.IsSound := fun d hd =>
        hdf d (mem_of_mem_filter hd)
      obtain ⟨pre,post,heq,-⟩ := lookup_eq_some_iff.mp hde
      have hm : (name,defined) ∈ defs := heq ▸ mem_append_right pre mem_cons_self
      exact isSound_expandList (fun next ms hmd =>
        ih (setAside defs name).length (by omega) ho hmd rfl) (hdf _ hm) h
    · split at h <;> cases h

end CustomMedia

namespace MediaFeature

lemma isLegible_of_shift? {delta : Float32} {value shifted : Value} (hv : value.IsLegible)
    (h : value.shift? delta = some shifted) : shifted.IsLegible := by
  unfold Value.shift? at h
  split at h
  · cases h
    exact forall_mem_singleton.mpr trivial
  · cases h
    have hu := forall_mem_singleton.mp hv
    exact forall_mem_singleton.mpr hu
  · cases h

/-- The names of the least and of the greatest value can be written like the name of the feature. -/
lemma isLowerName_of_ranged {name : String} (h : ranged.contains name) :
    Written.IsLowerName name ∧ Written.IsLowerName ("min-" ++ name) ∧ Written.IsLowerName ("max-" ++ name) := by
  have ha : ∀ name ∈ ranged, ∀ least ∈ ["","min-","max-"],
      Written.HasNoNull (least ++ name).toList ∧ least ++ name ≠ "" ∧ Text.lower (least ++ name) = least ++ name := by
    decide +kernel
  have hl : ∀ least ∈ ["","min-","max-"], Written.IsLowerName (least ++ name) := by
    intro least hls
    obtain ⟨hnl,hne,hl⟩ := ha name (contains_iff_mem.mp h) least hls
    exact ⟨⟨hnl,hne⟩,hl⟩
  have hn := hl "" (by simp)
  rw [String.empty_append] at hn
  exact ⟨hn,hl "min-" (by simp),hl "max-" (by simp)⟩

lemma isSound_of_lowerComparison? {name : String} {cmp : Comparison} {value : Value}
    {f : MediaFeature} (hv : value.IsLegible)
    (h : lowerComparison? name cmp value = some f) : f.IsSound := by
  unfold lowerComparison? at h
  dsimp only at h
  split at h
  · rename_i hr
    obtain ⟨hn,hl,hg⟩ := isLowerName_of_ranged hr
    cases cmp with
    | equal =>
      cases h
      exact .plain hn hv
    | greaterEqual =>
      cases h
      exact .plain hl hv
    | lessEqual =>
      cases h
      exact .plain hg hv
    | greater =>
      obtain ⟨shifted,hs,rfl⟩ := map_eq_some_iff.mp h
      exact .plain hl (isLegible_of_shift? hv hs)
    | less =>
      obtain ⟨shifted,hs,rfl⟩ := map_eq_some_iff.mp h
      exact .plain hg (isLegible_of_shift? hv hs)
  · cases h

lemma IsSound.lower {f : MediaFeature} (hf : f.IsSound) : f.lower.IsSound := by
  cases hf with
  | plain hn hv => exact .feature (.plain hn hv)
  | boolean hn hl => exact .feature (.boolean hn hl)
  | range hn hv =>
    rw [MediaFeature.lower]
    split
    · rename_i g hg
      exact .feature (isSound_of_lowerComparison? hv hg)
    · exact .feature (.range hn hv)
  | interval hn hs hst hsm hfr hsc hnt =>
    rw [MediaFeature.lower]
    split
    · rename_i g g' hg hg'
      have hlf := MediaCondition.IsSound.feature (isSound_of_lowerComparison? hs hg)
      have hr := MediaCondition.IsSound.feature (isSound_of_lowerComparison? hst hg')
      exact .operation (le_refl 2) (forall_mem_cons.mpr ⟨hlf,forall_mem_singleton.mpr hr⟩)
    · exact .feature (.interval hn hs hst hsm hfr hsc hnt)

end MediaFeature

namespace MediaCondition

lemma IsSound.operands {c : MediaCondition} (hc : c.IsSound) (con : Connective) :
    (∀ d ∈ c.operands con, d.IsSound) ∧ 1 ≤ (c.operands con).length := by
  unfold MediaCondition.operands
  split
  · cases hc with
    | operation hl hcs =>
      split
      · exact ⟨hcs,le_of_succ_le hl⟩
      · exact ⟨forall_mem_singleton.mpr (.operation hl hcs),le_refl 1⟩
  · exact ⟨forall_mem_singleton.mpr hc,le_refl 1⟩

mutual

lemma isSound_lowerRanges : (c : MediaCondition) → c.IsSound → c.lowerRanges.IsSound
  | .feature f, .feature hf => hf.lower
  | .negation c, .negation hc => .negation (isSound_lowerRanges c hc)
  | .operation con cs, .operation hl hcs => by
    obtain ⟨ha,hle⟩ := isSound_lowerOperands con cs hcs
    exact .operation (le_trans hl hle) ha
  | .unknown _, _ => .unknown

lemma isSound_lowerOperands (con : Connective) : (cs : List MediaCondition) →
    (∀ c ∈ cs, c.IsSound) → (∀ c ∈ lowerRanges.lowerOperands con cs, c.IsSound) ∧
      cs.length ≤ (lowerRanges.lowerOperands con cs).length
  | [], _ => ⟨forall_mem_nil _,le_refl 0⟩
  | c :: cs, hcs => by
    obtain ⟨hc,hcs⟩ := forall_mem_cons.mp hcs
    obtain ⟨hf,ho⟩ := (isSound_lowerRanges c hc).operands con
    obtain ⟨hr,hle⟩ := isSound_lowerOperands con cs hcs
    rw [lowerRanges.lowerOperands,length_append,length_cons]
    exact ⟨forall_mem_append.mpr ⟨hf,hr⟩,by omega⟩

end
end MediaCondition

namespace MediaList

lemma IsSound.lowerRanges {ms : MediaList} (hm : ms.IsSound) : ms.lowerRanges.IsSound := by
  intro query hqr
  obtain ⟨q,hq,rfl⟩ := mem_map.mp hqr
  cases hm q hq with
  | typed hn hw hr hcn =>
    refine .typed hn hw hr fun c hc => ?_
    obtain ⟨d,hd,rfl⟩ := map_eq_some_iff.mp hc
    exact isSound_lowerRanges d (hcn d hd)
  | untyped hc => exact .untyped (isSound_lowerRanges _ hc)
  | negated hc => exact .negated (isSound_lowerRanges _ hc)

/-- Queries that are parsed from the tokens of a source without a null character, with custom media
queries replaced and comparisons lowered any number of times. -/
inductive IsDerived : MediaList → Prop
  | parsed {source : String} {file : SourceFile} {tokens : List Token} {ms : MediaList}
      (hsource : Written.HasNoNull source.toList) (htokens : tokens.Sublist (Token.scanRules source))
      (h : parse file tokens = .ok ms) : IsDerived ms
  | substituted {defs : MediaDefinitions} {ms media' : MediaList}
      (hdefinitions : ∀ d ∈ defs, IsDerived d.2) (hmedia : IsDerived ms)
      (h : CustomMedia.expandList (CustomMedia.lookup defs []) ms = .ok media') :
      IsDerived media'
  | lowered {ms : MediaList} (hmedia : IsDerived ms) : IsDerived ms.lowerRanges

lemma IsDerived.isSound {ms : MediaList} (h : ms.IsDerived) : ms.IsSound := by
  induction h with
  | parsed hs ht h =>
    exact isSound_of_parse ((Media.allReadable_scanRules hs).sublist ht) h
  | substituted _ _ h ihdefinitions ihmedia =>
    exact isSound_expandList (fun _ _ hlookup => isSound_lookup ihdefinitions hlookup) ihmedia h
  | lowered _ ih => exact ih.lowerRanges

end MediaList
end Css
