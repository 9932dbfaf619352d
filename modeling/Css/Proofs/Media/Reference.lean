import Css.Proofs.Media.Substitution

/-!
# Which custom media queries can be replaced

The names in queries lead to definitions, and these to other names.
-/
namespace Css.CustomMedia
open List Rule Option

section
variable (rs : List Rule)

def Refers (name next : String) : Prop := ∃ ms, Defines rs name ms ∧ ms.hasFeature (isReferenceTo next) = true

inductive Reaches (ms : MediaList) : String → Prop
  | refers {name : String} (h : ms.hasFeature (isReferenceTo name) = true) : Reaches ms name
  | defined {name next : String} (h : Reaches ms name) (hnext : Refers rs name next) :
      Reaches ms next

def RefersWithin (ms : MediaList) (name : String) : Prop := ∃ query ∈ ms, reference? query = none ∧
    query.condition.any (MediaCondition.hasFeature (isReferenceTo name)) = true

/-- The names that stand within larger queries, among the queries or in definitions that they reach. -/
def ReachesWithin (ms : MediaList) (name : String) : Prop :=
  RefersWithin ms name ∨ ∃ other defined, Reaches rs ms other ∧ Defines rs other defined ∧ RefersWithin defined name

/-- Queries, and what they are if those that are nothing but a name are replaced by its definition. -/
inductive Unfolds : MediaList → MediaList → Prop
  | nil : Unfolds [] []
  | name {query : MediaQuery} {name : String} {queries ms first rest : MediaList}
      (hname : reference? query = some name) (hdefines : Defines rs name ms)
      (hfirst : Unfolds ms first) (hrest : Unfolds queries rest) :
      Unfolds (query :: queries) (first ++ rest)
  | other {query : MediaQuery} {queries rest : MediaList} (hquery : reference? query = none)
      (hrest : Unfolds queries rest) : Unfolds (query :: queries) (query :: rest)

/-- The name stands for one query with a condition and neither a media type nor a qualifier. -/
def StandsForCondition (name : String) : Prop := ∃ ms c, Defines rs name ms ∧ Unfolds rs ms [⟨none,none,some c⟩]

structure IsResolvable (ms : MediaList) : Prop where
  isDefined : ∀ name, Reaches rs ms name → ∃ defined, Defines rs name defined
  notCircular : ∀ name, Reaches rs ms name → ¬Relation.TransGen (Refers rs) name name
  isCondition : ∀ name, ReachesWithin rs ms name → StandsForCondition rs name

def Blames (ms : MediaList) : TransformCause → Prop
  | .undefinedCustomMedia name =>
    Reaches rs ms name ∧ ∀ defined, ¬Defines rs name defined
  | .circularCustomMedia name =>
    Reaches rs ms name ∧ Relation.TransGen (Refers rs) name name
  | .invalidCustomMedia name => ReachesWithin rs ms name ∧ ¬StandsForCondition rs name
  | .unresolvedNesting => False

end

variable {rs : List Rule} {ms media' : MediaList} {name : String} {cause : TransformCause}

lemma Defines.unique (h : Defines rs name ms) (h' : Defines rs name media') : ms = media' :=
  some.inj ((lookup_definitions_iff.mpr h).symm.trans (lookup_definitions_iff.mpr h'))

lemma Unfolds.unique {post after' : MediaList} (h : Unfolds rs ms post) (h' : Unfolds rs ms after') : post = after' := by
  induction h generalizing after' with
  | nil =>
    cases h'
    rfl
  | name hn hd _ _ ihfirst ihrest =>
    cases h' with
    | name hn' hd' hf' hr' =>
      cases some.inj (hn.symm.trans hn')
      cases hd.unique hd'
      rw [ihfirst hf',ihrest hr']
    | other hq' _ => cases hn.symm.trans hq'
  | other hq _ ih =>
    cases h' with
    | name hn' _ _ _ => cases hq.symm.trans hn'
    | other _ hr' => rw [ih hr']

lemma not_isResolvable_of_blames (h : Blames rs ms cause) : ¬IsResolvable rs ms := by
  intro hr
  cases cause with
  | undefinedCustomMedia name =>
    obtain ⟨defined,hd⟩ := hr.isDefined name h.1
    exact h.2 defined hd
  | circularCustomMedia name => exact hr.notCircular name h.1 h.2
  | invalidCustomMedia name => exact h.2 (hr.isCondition name h.1)
  | unresolvedNesting => exact h

def SameFrame (before after : MediaQuery) : Prop :=
  after.qualifier = before.qualifier ∧ after.mediaType = before.mediaType ∧
    after.condition.isSome = before.condition.isSome

lemma sameFrame_refl (query : MediaQuery) : SameFrame query query := ⟨rfl,rfl,rfl⟩

lemma soleCondition?_iff {pre post : MediaList} (h : List.Forall₂ SameFrame pre post) :
    (∃ c, soleCondition? post = some c) ↔ ∃ c, pre = [⟨none,none,some c⟩] := by
  constructor
  · rintro ⟨c,hc⟩
    unfold soleCondition? at hc
    split at hc
    · cases h with
      | @cons q _ _ _ hf hn =>
        cases hn
        obtain ⟨qualifier,mediaType,cond⟩ := q
        obtain ⟨hq,hm,hcn⟩ := hf
        obtain ⟨d,hd⟩ := isSome_iff_exists.mp hcn.symm
        cases hq
        cases hm
        cases hd
        exact ⟨d,rfl⟩
    · cases hc
  · rintro ⟨c,rfl⟩
    cases h with
    | @cons _ q _ _ hf hn =>
      cases hn
      obtain ⟨qualifier,mediaType,cond⟩ := q
      obtain ⟨hq,hm,hcn⟩ := hf
      obtain ⟨d,hd⟩ := isSome_iff_exists.mp hcn
      cases hq
      cases hm
      cases hd
      exact ⟨d,rfl⟩

/-- What a name stands for is what its definition unfolds to, but for what becomes of conditions. -/
def Frames (rs : List Rule) (lookup : String → Except TransformCause MediaList) : Prop :=
  ∀ name ms, lookup name = .ok ms → ∃ defined unfolded, Defines rs name defined ∧
    Unfolds rs defined unfolded ∧ List.Forall₂ SameFrame unfolded ms

lemma unfolds_of_expandList {lookup : String → Except TransformCause MediaList}
    (hl : Frames rs lookup) (h : expandList lookup ms = .ok media') :
    ∃ unfolded, Unfolds rs ms unfolded ∧ List.Forall₂ SameFrame unfolded media' := by
  induction ms generalizing media' with
  | nil =>
    cases h
    exact ⟨[],.nil,.nil⟩
  | cons q qs ih =>
    obtain ⟨first,rest,hf,hr,rfl⟩ := ok_of_bind₂_ok h
    obtain ⟨unfolded,hu,hfr⟩ := ih hr
    unfold expandQuery at hf
    split at hf
    · rename_i name hn
      obtain ⟨defined,more,hd,hm,hmr⟩ := hl name first hf
      exact ⟨more ++ unfolded,.name hn hd hm hu,rel_append hmr hfr⟩
    · rename_i hq
      refine ⟨q :: unfolded,.other hq hu,?_⟩
      split at hf
      · cases hf
        exact .cons (sameFrame_refl q) hfr
      · rename_i c hc
        obtain ⟨d,_,hf⟩ := ok_of_bind_ok hf
        cases hf
        exact .cons ⟨rfl,rfl,by rw [hc]; rfl⟩ hfr

lemma frames_lookup (defs : MediaDefinitions) (entered : List String)
    (hd : AreDefined rs defs) : Frames rs (lookup defs entered) := by
  intro name ms h
  rw [lookup] at h
  split at h
  · rename_i defined hl
    have := length_setAside_lt hl
    obtain ⟨unfolded,hu,hf⟩ := unfolds_of_expandList (frames_lookup _ _ (areDefined_setAside hd name)) h
    exact ⟨defined,unfolded,hd name defined hl,hu,hf⟩
  · split at h <;> cases h
termination_by defs.length

lemma standsForCondition_iff {lookup : String → Except TransformCause MediaList}
    (hl : Frames rs lookup) (h : lookup name = .ok ms) :
    StandsForCondition rs name ↔ ∃ c, soleCondition? ms = some c := by
  obtain ⟨defined,unfolded,hd,hu,hf⟩ := hl name ms h
  rw [soleCondition?_iff hf]
  constructor
  · rintro ⟨defined',c,hd',hu'⟩
    cases hd.unique hd'
    exact ⟨c,hu.unique hu'⟩
  · rintro ⟨c,rfl⟩
    exact ⟨defined,c,hd,hu⟩

inductive Settles (rs : List Rule) : String → Prop
  | intro {name : String} {ms : MediaList} (hdefines : Defines rs name ms)
      (hnames : ∀ next, ms.hasFeature (isReferenceTo next) = true → Settles rs next)
      (hwithin : ∀ next, RefersWithin ms next → StandsForCondition rs next) :
      Settles rs name

lemma Settles.of_refers {next : String} (h : Settles rs name) (hn : Refers rs name next) : Settles rs next := by
  cases h with
  | intro hd hnm _ =>
    obtain ⟨ms,hd',hr⟩ := hn
    cases hd.unique hd'
    exact hnm next hr

lemma Settles.not_circular (h : Settles rs name) : ¬Relation.TransGen (Refers rs) name name := by
  induction h with
  | @intro name ms hd hnm hw ih =>
    intro hc
    -- The circle goes on from the next name on it, of which there is none by induction.
    obtain ⟨next,hn,hb⟩ := Relation.TransGen.head'_iff.mp hc
    obtain ⟨defined,hdf,hr⟩ := hn
    cases hd.unique hdf
    exact ih next hr (Relation.TransGen.tail' hb ⟨ms,hd,hr⟩)

lemma standsForCondition_of_expandList {lookup : String → Except TransformCause MediaList} (hl : Frames rs lookup)
    (h : expandList lookup ms = .ok media') (hn : RefersWithin ms name) :
    StandsForCondition rs name := by
  obtain ⟨q,hm,hq,hr⟩ := hn
  induction ms generalizing media' with
  | nil => cases hm
  | cons first qs ih =>
    obtain ⟨expanded,hf,h⟩ := ok_of_bind_ok h
    obtain ⟨rest,hrs,_⟩ := ok_of_bind_ok h
    rcases mem_cons.mp hm with rfl | hm
    · obtain ⟨c,hc,hr⟩ := (any_eq_true _ _).mp hr
      rw [expandQuery,hq,hc] at hf
      obtain ⟨d,hd,_⟩ := ok_of_bind_ok hf
      obtain ⟨found,e,hfn,hs⟩ := ok_of_expandsTo (expandsTo_of_ok hd) hr
      exact (standsForCondition_iff hl hfn).mpr ⟨e,hs⟩
    · exact ih hrs hm

lemma settles_of_lookup (defs : MediaDefinitions) (entered : List String)
    (name : String) (hd : AreDefined rs defs) {ms : MediaList}
    (h : lookup defs entered name = .ok ms) : Settles rs name := by
  rw [lookup] at h
  split at h
  · rename_i defined hl
    have := length_setAside_lt hl
    have hr := areDefined_setAside hd name
    refine .intro (hd name defined hl) (fun next hn => ?_) fun next hn => ?_
    · obtain ⟨found,hf⟩ := ok_of_expandList h hn
      exact settles_of_lookup (setAside defs name) (name :: entered) next hr hf
    · exact standsForCondition_of_expandList (frames_lookup _ _ hr) h hn
  · split at h <;> cases h
termination_by defs.length

lemma areDefined_definitions (rs : List Rule) : AreDefined rs (definitions rs) :=
  fun _ _ => lookup_definitions_iff.mp

lemma isResolvable_of_expandList (h : expandList (lookup (definitions rs) []) ms = .ok media') :
    IsResolvable rs ms := by
  have hdf := areDefined_definitions rs
  have hs : ∀ name, Reaches rs ms name → Settles rs name := by
    intro name hn
    induction hn with
    | refers hr =>
      obtain ⟨found,hf⟩ := ok_of_expandList h hr
      exact settles_of_lookup _ _ _ hdf hf
    | defined _ hnx ih => exact ih.of_refers hnx
  refine ⟨fun name hn => ?_,fun name hn => (hs name hn).not_circular,?_⟩
  · cases hs name hn with
    | intro hd _ _ => exact ⟨_,hd⟩
  · rintro name (hw | ⟨other,defined,ho,hd,hw⟩)
    · exact standsForCondition_of_expandList (frames_lookup _ _ hdf) h hw
    · cases hs other ho with
      | intro hd' _ ha =>
        cases hd.unique hd'
        exact ha name hw

section
variable {lookup : String → Except TransformCause MediaList}

/-- A name in a condition that is not expanded: it stands for nothing, or for no condition. -/
def Fails (lookup : String → Except TransformCause MediaList) (cause : TransformCause) (name : String) : Prop :=
  lookup name = .error cause ∨ cause = .invalidCustomMedia name ∧ ∃ ms, lookup name = .ok ms ∧ soleCondition? ms = none

lemma failsOnly_of_expandCondition (c : MediaCondition) (h : expandCondition lookup c = .error cause) :
    ∃ name, c.hasFeature (isReferenceTo name) ∧ Fails lookup cause name := by
  induction c using MediaCondition.induct with
  | feature f =>
    rw [expandCondition] at h
    split at h
    · cases h
    · rename_i name hn
      refine ⟨name,beq_iff_eq.mpr hn,?_⟩
      rcases error_of_bind_error h with h | ⟨ms,hm,h⟩
      · exact .inl h
      · split at h
        · cases h
        · rename_i hs
          cases h
          exact .inr ⟨rfl,ms,hm,hs⟩
  | negation c ih =>
    rcases error_of_bind_error h with h | ⟨d,_,h⟩
    · exact ih h
    · cases h
  | nil | unknown => cases h
  | cons con c cs hc hcs =>
    rcases error_of_bind_error h with h | ⟨ds,_,h⟩
    · rcases error_of_bind₂_error h with h | h
      · obtain ⟨name,hn,hf⟩ := hc h
        exact ⟨name,Bool.or_eq_true_iff.mpr (.inl hn),hf⟩
      · obtain ⟨name,hn,hf⟩ := hcs (by rw [expandCondition,h]; rfl)
        exact ⟨name,Bool.or_eq_true_iff.mpr (.inr hn),hf⟩
    · cases h

/-- A name in queries that are not expanded. It may stand for no condition only where it has to. -/
lemma failsOnly_of_expandList (h : expandList lookup ms = .error cause) : ∃ name, ms.hasFeature (isReferenceTo name) ∧
      (lookup name = .error cause ∨ RefersWithin ms name ∧ Fails lookup cause name) := by
  induction ms with
  | nil => cases h
  | cons q qs ih =>
    rcases error_of_bind_error h with hfr | ⟨first,_,h⟩
    · unfold expandQuery at hfr
      split at hfr
      · rename_i name hn
        obtain ⟨f,rfl,hf⟩ := reference?_eq_some hn
        exact ⟨name,Bool.or_eq_true_iff.mpr (.inl (beq_iff_eq.mpr hf)),.inl hfr⟩
      · rename_i hq
        split at hfr
        · cases hfr
        · rename_i c hc
          rcases error_of_bind_error hfr with h | ⟨d,_,h⟩
          · obtain ⟨name,hn,hfl⟩ := failsOnly_of_expandCondition c h
            have ha : q.condition.any (MediaCondition.hasFeature (isReferenceTo name)) := by
              rw [hc]
              exact hn
            exact ⟨name,Bool.or_eq_true_iff.mpr (.inl ha),.inr ⟨⟨q,mem_cons_self,hq,ha⟩,hfl⟩⟩
          · cases h
    · rcases error_of_bind_error h with h | ⟨rest,_,h⟩
      · obtain ⟨name,hn,hfl⟩ := ih h
        refine ⟨name,Bool.or_eq_true_iff.mpr (.inr hn),hfl.imp_right ?_⟩
        rintro ⟨⟨other,hm,ho⟩,hfl⟩
        exact ⟨⟨other,mem_cons_of_mem q hm,ho⟩,hfl⟩
      · cases h

end

def AreSetAside (rs : List Rule) (definitions : MediaDefinitions) (entered : List String) : Prop :=
  ∀ name, definitions.lookup name = none → name ∉ entered → ∀ ms, ¬Defines rs name ms

lemma AreSetAside.cons {defs : MediaDefinitions} {entered : List String}
    (h : AreSetAside rs defs entered) (name : String) :
    AreSetAside rs (setAside defs name) (name :: entered) := by
  intro next hn hm
  rw [mem_cons,not_or] at hm
  rw [lookup_setAside_of_ne defs hm.1] at hn
  exact h next hn hm.2

/-- The queries that an error blames are `root`, from where all names that are being expanded are
reached. Each of these names leads to the next one. -/
lemma blames_of_lookup {root : MediaList} (defs : MediaDefinitions)
    (entered : List String) (name : String) (hd : AreDefined rs defs)
    (ha : AreSetAside rs defs entered) (hr : Reaches rs root name)
    (hp : ∀ other ∈ entered, Relation.TransGen (Refers rs) other name)
    (h : lookup defs entered name = .error cause) : Blames rs root cause := by
  rw [lookup] at h
  split at h
  · rename_i defined hl
    have := length_setAside_lt hl
    have hdf := hd name defined hl
    have hrs := areDefined_setAside hd name
    obtain ⟨next,hn,hf⟩ := failsOnly_of_expandList h
    have hrf : Refers rs name next := ⟨defined,hdf,hn⟩
    have hi (h : lookup (setAside defs name) (name :: entered) next = .error cause) : Blames rs root cause := by
      refine blames_of_lookup (setAside defs name) (name :: entered) next hrs
        (ha.cons name) (.defined hr hrf) (fun other ho => ?_) h
      rcases mem_cons.mp ho with rfl | ho
      · exact .single hrf
      · exact (hp other ho).tail hrf
    rcases hf with hf | ⟨hw,hf | ⟨rfl,ms,hm,hs⟩⟩
    · exact hi hf
    · exact hi hf
    · refine ⟨.inr ⟨name,defined,hr,hdf,hw⟩,fun hst => ?_⟩
      obtain ⟨c,hc⟩ := (standsForCondition_iff (frames_lookup _ _ hrs) hm).mp hst
      cases hs.symm.trans hc
  · rename_i hnn
    split at h
    · rename_i he
      cases h
      exact ⟨hr,hp name (contains_iff_mem.mp he)⟩
    · rename_i he
      cases h
      exact ⟨hr,ha name hnn fun hmm => he (contains_iff_mem.mpr hmm)⟩
termination_by defs.length

lemma blames_of_expandList (h : expandList (lookup (definitions rs) []) ms = .error cause) : Blames rs ms cause := by
  have hd := areDefined_definitions rs
  have ha : AreSetAside rs (definitions rs) [] := by
    intro name hn _ ms hdf
    cases hn.symm.trans (lookup_definitions_iff.mpr hdf)
  obtain ⟨name,hnm,hf⟩ := failsOnly_of_expandList h
  have hi (h : lookup (definitions rs) [] name = .error cause) : Blames rs ms cause :=
    blames_of_lookup _ _ name hd ha (.refers hnm) (fun _ hm => by cases hm) h
  rcases hf with hf | ⟨hw,hf | ⟨rfl,found,hfn,hs⟩⟩
  · exact hi hf
  · exact hi hf
  · refine ⟨.inl hw,fun hst => ?_⟩
    obtain ⟨c,hc⟩ := (standsForCondition_iff (frames_lookup _ _ hd) hfn).mp hst
    cases hs.symm.trans hc

section
variable {definitions : MediaDefinitions} {location : Location} {place : Location}

lemma error_of_expand (h : visitor.expand definitions place ms = .error (cause,location)) :
    expandList (lookup definitions []) ms = .error cause := by
  unfold visitor.expand at h
  cases he : expandList (lookup definitions []) ms with
  | error e =>
    rw [he] at h; cases h
    rfl
  | ok result =>
    rw [he] at h; cases h

def FailsIn (definitions : MediaDefinitions) (cause : TransformCause) (lists : List MediaList) : Prop :=
  ∃ ms ∈ lists, expandList (lookup definitions []) ms = .error cause

lemma failsIn_of_group {g : Group} (h : (visitor definitions).group g place = .error (cause,location)) :
    FailsIn definitions cause g.media?.toList := by
  cases g with
  | media q =>
    rcases error_of_bind_error h with h | ⟨_,_,h⟩
    · exact ⟨q,mem_singleton.mpr rfl,error_of_expand h⟩
    · cases h
  | supports cond => cases h
  | layer name => cases h

lemma failsIn_of_statement {s : Statement} (h : (visitor definitions).statement s place = .error (cause,location)) :
    FailsIn definitions cause s.media?.toList := by
  cases s with
  | importSheet url layer supports ms =>
    rcases error_of_bind_error h with h | ⟨_,_,h⟩
    · exact ⟨ms,mem_singleton.mpr rfl,error_of_expand h⟩
    · cases h
  | keyframes | property | fontFace | page | namespaceOf | layers | customMedia | unknown => cases h

lemma FailsIn.append_left {lists : List MediaList} (h : FailsIn definitions cause lists)
    (more : List MediaList) : FailsIn definitions cause (lists ++ more) := by
  obtain ⟨ms,hm,h⟩ := h
  exact ⟨ms,mem_append_left more hm,h⟩

lemma FailsIn.append_right {lists : List MediaList} (h : FailsIn definitions cause lists)
    (pre : List MediaList) : FailsIn definitions cause (pre ++ lists) := by
  obtain ⟨ms,hm,h⟩ := h
  exact ⟨ms,mem_append_right pre hm,h⟩

lemma failsIn_of_traverseAll (rs : List Rule)
    (h : Rule.traverse.traverseAll (visitor definitions) rs = .error (cause,location)) :
    FailsIn definitions cause (Rule.media.mediaOf rs) := by
  induction rs using Rule.induct with
  | nil => cases h
  | cons r rs ihr ih =>
    rcases error_of_bind₂_error h with h | h
    · refine FailsIn.append_left ?_ _
      cases r with
      | style | nest =>
        rcases error_of_bind₂_error h with h | h
        · cases h
        · exact ihr h
      | group g rs place =>
        rcases error_of_bind₂_error h with h | h
        · exact (failsIn_of_group h).append_left _
        · exact (ihr h).append_right _
      | statement s place =>
        rcases error_of_bind_error h with h | ⟨_,_,h⟩
        · exact failsIn_of_statement h
        · cases h
    · exact (ih h).append_right _

end

lemma blames_of_resolve {loc : Location} (h : resolve rs = .error (cause,loc)) :
    ∃ ms ∈ media.mediaOf rs, Blames rs ms cause := by
  obtain ⟨ms,hm,he⟩ := failsIn_of_traverseAll _ h
  rw [mediaOf_filter] at hm
  exact ⟨ms,hm,blames_of_expandList he⟩

lemma isResolvable_of_resolve {rules' : List Rule} (h : resolve rs = .ok rules') :
    ∀ ms ∈ media.mediaOf rs, IsResolvable rs ms := by
  have ha := (mediaOf_of_resolve h).imp fun pre post he =>
    And.intro (isResolvable_of_expandList he) he
  exact ((forall₂_and_left _ _).mp ha).1

/-- Names of custom media queries are replaced exactly if in the queries of all groups and imports each
name that is reached is defined and does not lead back to itself, and each name within a larger query
stands for a condition. Otherwise the error names one that is reached and breaks the rule that the
error speaks of. -/
theorem resolve_ok_iff (rules : List Rule) : ((∃ rules', resolve rules = .ok rules') ↔
        ∀ media ∈ Rule.media.mediaOf rules, IsResolvable rules media) ∧
      ∀ cause location, resolve rules = .error (cause, location) →
        ∃ media ∈ Rule.media.mediaOf rules, Blames rules media cause := by
  refine ⟨⟨?_, fun hresolvable => ?_⟩, fun cause location h => blames_of_resolve h⟩
  · rintro ⟨rules', h⟩
    exact isResolvable_of_resolve h
  · cases h : resolve rules with
    | ok rules' => exact ⟨rules', rfl⟩
    | error e =>
      obtain ⟨media, hmem, hblames⟩ := blames_of_resolve h
      exact absurd (hresolvable media hmem) (not_isResolvable_of_blames hblames)

end Css.CustomMedia
