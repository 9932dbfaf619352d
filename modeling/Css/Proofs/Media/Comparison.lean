import Css.Proofs.Media.Custom

/-!
# Queries without signs of comparison mean the same

A medium of which a least value holds where the feature is at least that value, and so on, does not tell
a condition from the one with its signs of comparison replaced.
-/
namespace Css
open List MediaCondition.hasFeature Bool

structure Medium where
  mediaType : String → Bool
  feature : MediaFeature → Bool
  unknown : String → Bool

namespace Connective

def unit : Connective → Bool
  | and => true
  | or => false

def combine : Connective → Bool → Bool → Bool
  | and, a, b => a && b
  | or, a, b => a || b

end Connective

section
variable (medium : Medium) (custom : String → Bool)

/-- Whether a condition holds of a medium, where the names of custom media queries mean `custom`. -/
def MediaCondition.holds : MediaCondition → Bool
  | feature f => (CustomMedia.featureName? f).elim (medium.feature f) custom
  | negation c => !c.holds
  | operation connective cs => holdsAll connective cs
  | unknown text => medium.unknown text
where
  holdsAll (connective : Connective) : List MediaCondition → Bool
    | [] => connective.unit
    | c :: cs => connective.combine c.holds (holdsAll connective cs)

def MediaQuery.holds (query : MediaQuery) : Bool := (query.qualifier == some .not) ^^
    (query.mediaType.all medium.mediaType && query.condition.all (MediaCondition.holds medium custom))

def MediaList.holds (ms : MediaList) : Bool := ms.isEmpty || ms.any (MediaQuery.holds medium custom)

end

def CustomMedia.isReferenceTo (name : String) (f : MediaFeature) : Bool := featureName? f == some name

section
variable {medium : Medium} {custom custom' : String → Bool}

namespace MediaCondition
open CustomMedia

lemma holds_congr (c : MediaCondition) (h : ∀ name, c.hasFeature (isReferenceTo name) → custom name = custom' name) :
    c.holds medium custom = c.holds medium custom' := by
  induction c using induct with
  | feature f =>
    rw [holds,holds]
    cases hn : featureName? f with
    | none => rfl
    | some name => exact h name (beq_iff_eq.mpr hn)
  | negation c ih => rw [holds,holds,ih h]
  | nil con => rfl
  | cons con c cs hc hcs =>
    exact congrArg₂ con.combine (hc fun name hn => h name (or_eq_true_iff.mpr (.inl hn)))
      (hcs fun name hn => h name (or_eq_true_iff.mpr (.inr hn)))
  | unknown text => rfl

lemma hasFeature_of_imp {p q : MediaFeature → Bool} (h : ∀ f, p f → q f)
    (c : MediaCondition) (hc : c.hasFeature p) : c.hasFeature q := by
  induction c using induct with
  | feature f => exact h f hc
  | negation c ih => exact ih hc
  | nil | unknown => cases hc
  | cons con c cs ih ihs =>
    exact or_eq_true_iff.mpr ((or_eq_true_iff.mp hc).imp ih ihs)

end MediaCondition

namespace MediaList
open CustomMedia

lemma holds_congr {ms : MediaList} (h : ∀ name, ms.hasFeature (isReferenceTo name) → custom name = custom' name) :
    ms.holds medium custom = ms.holds medium custom' := by
  have hq : ∀ query ∈ ms, query.holds medium custom = query.holds medium custom' := by
    intro query hq
    unfold MediaQuery.holds
    cases hc : query.condition with
    | none => rfl
    | some c =>
      have hs : c.holds medium custom = c.holds medium custom' := by
        refine MediaCondition.holds_congr c fun name hn => h name ?_
        rw [hasFeature,any_eq_true]
        exact ⟨query,hq,by rw [hc]; exact hn⟩
      rw [Option.all_some,Option.all_some,hs]
  unfold holds
  congr 1
  rw [Bool.eq_iff_iff,any_eq_true,any_eq_true]
  exact exists_congr fun query => and_congr_right fun hm => by rw [hq query hm]

lemma not_isReferenceTo {ms : MediaList} (h : ms.hasFeature isReference = false)
    (name : String) : ms.hasFeature (isReferenceTo name) = false := by
  rw [Bool.eq_false_iff] at h ⊢
  intro hn
  apply h
  rw [hasFeature,any_eq_true] at hn ⊢
  obtain ⟨query,hm,hq⟩ := hn
  refine ⟨query,hm,?_⟩
  rw [Option.any_eq_true] at hq ⊢
  obtain ⟨c,hc,hft⟩ := hq
  refine ⟨c,hc,MediaCondition.hasFeature_of_imp (fun f hf => ?_) c hft⟩
  rw [isReference,beq_iff_eq.mp hf]; rfl

end MediaList
end

namespace CustomMedia
open MediaCondition.holds

section
variable (lookup : String → Except TransformCause MediaList) (medium : Medium) (custom : String → Bool)

def meaning (name : String) : Bool := (lookup name).toOption.any (MediaList.holds medium custom)

variable {lookup medium custom} {name : String} {ms : MediaList}

lemma meaning_of_ok (h : lookup name = .ok ms) : meaning lookup medium custom name = ms.holds medium custom := by
  rw [meaning,h]; rfl

lemma holds_soleCondition? {c : MediaCondition} (h : soleCondition? ms = some c) :
    ms.holds medium custom = c.holds medium custom := by
  unfold soleCondition? at h
  split at h
  · cases h
    simp [MediaList.holds,MediaQuery.holds]
  · cases h

lemma holds_expandsTo {c c' : MediaCondition} (h : ExpandsTo lookup c c') :
    c'.holds medium custom = c.holds medium (meaning lookup medium custom) := by
  induction h with
  | kept hn => rw [MediaCondition.holds,MediaCondition.holds,hn]; rfl
  | replaced hn hm hs =>
    rw [MediaCondition.holds,hn,Option.elim_some,meaning_of_ok hm,holds_soleCondition? hs]
  | negation _ ih => exact congrArg not ih
  | nil | unknown => rfl
  | cons _ _ ih ihs => exact congrArg₂ (Connective.combine _) ih ihs

lemma ok_of_expandsTo {name : String} {c c' : MediaCondition}
    (h : ExpandsTo lookup c c') (hn : c.hasFeature (isReferenceTo name)) :
    ∃ ms d, lookup name = .ok ms ∧ soleCondition? ms = some d := by
  induction h with
  | kept hf => exact absurd (hf.symm.trans (beq_iff_eq.mp hn)) nofun
  | replaced hf hm hs =>
    cases hf.symm.trans (beq_iff_eq.mp hn)
    exact ⟨_,_,hm,hs⟩
  | negation _ ih => exact ih hn
  | nil | unknown => cases hn
  | cons _ _ ih ihs => exact (or_eq_true_iff.mp hn).elim ih ihs

variable {query : MediaQuery}

lemma reference?_eq_some (h : reference? query = some name) :
    ∃ f, query = ⟨none,none,some (.feature f)⟩ ∧ featureName? f = some name := by
  unfold reference? at h
  split at h
  · exact ⟨_,rfl,h⟩
  · cases h

def Lists (lookup : String → Except TransformCause MediaList) : Prop := ∀ name ms, lookup name = .ok ms → ms ≠ []

lemma expandQuery_ne_nil (hl : Lists lookup) (h : expandQuery lookup query = .ok ms) : ms ≠ [] := by
  unfold expandQuery at h
  split at h
  · exact hl _ ms h
  · split at h
    · cases h
      exact cons_ne_nil _ _
    · obtain ⟨_,_,h⟩ := ok_of_bind_ok h
      cases h
      exact cons_ne_nil _ _

lemma any_expandQuery (hl : Lists lookup) (h : expandQuery lookup query = .ok ms) :
    ms.any (MediaQuery.holds medium custom) = query.holds medium (meaning lookup medium custom) := by
  have hne := expandQuery_ne_nil hl h
  unfold expandQuery at h
  split at h
  · rename_i name hn
    obtain ⟨f,rfl,hf⟩ := reference?_eq_some hn
    have hm : meaning lookup medium custom name = ms.holds medium custom := meaning_of_ok h
    rw [MediaList.holds,isEmpty_eq_false_iff.mpr hne,Bool.false_or] at hm
    simp [MediaQuery.holds,MediaCondition.holds,hf,hm]
  · split at h
    · rename_i hc
      cases h
      simp [MediaQuery.holds,hc]
    · rename_i c hc
      obtain ⟨d,hd,h⟩ := ok_of_bind_ok h
      cases h
      simp [MediaQuery.holds,hc,holds_expandsTo (expandsTo_of_ok hd)]

lemma ok_of_expandQuery (h : expandQuery lookup query = .ok ms)
    (hn : query.condition.any (MediaCondition.hasFeature (isReferenceTo name))) :
    ∃ ms, lookup name = .ok ms := by
  unfold expandQuery at h
  split at h
  · rename_i other ho
    obtain ⟨f,rfl,hf⟩ := reference?_eq_some ho
    have heq : featureName? f = some name := beq_iff_eq.mp hn
    rw [hf] at heq; cases heq
    exact ⟨ms,h⟩
  · split at h
    · rename_i hc
      rw [hc] at hn; cases hn
    · rename_i c hc
      obtain ⟨d,hd,_⟩ := ok_of_bind_ok h
      rw [hc] at hn
      obtain ⟨ms,_,hm,_⟩ := ok_of_expandsTo (expandsTo_of_ok hd) hn
      exact ⟨ms,hm⟩

variable {media' : MediaList}

lemma ok_of_expandList (h : expandList lookup ms = .ok media')
    (hn : ms.hasFeature (isReferenceTo name)) : ∃ ms, lookup name = .ok ms := by
  induction ms generalizing media' with
  | nil => cases hn
  | cons query qs ih =>
    obtain ⟨first,hf,h⟩ := ok_of_bind_ok h
    obtain ⟨rest,hr,_⟩ := ok_of_bind_ok h
    rcases or_eq_true_iff.mp hn with hn | hn
    · exact ok_of_expandQuery hf hn
    · exact ih hr hn

lemma isEmpty_expandList (hl : Lists lookup) (h : expandList lookup ms = .ok media') : media'.isEmpty = ms.isEmpty := by
  cases ms with
  | nil =>
    cases h
    rfl
  | cons query qs =>
    obtain ⟨first,rest,hf,_,rfl⟩ := ok_of_bind₂_ok h
    simp [expandQuery_ne_nil hl hf]

lemma any_expandList (hl : Lists lookup) (h : expandList lookup ms = .ok media') :
    media'.any (MediaQuery.holds medium custom) = ms.any (MediaQuery.holds medium (meaning lookup medium custom)) := by
  induction ms generalizing media' with
  | nil =>
    cases h
    rfl
  | cons query qs ih =>
    obtain ⟨first,rest,hf,hr,rfl⟩ := ok_of_bind₂_ok h
    rw [any_append,any_cons,any_expandQuery hl hf,ih hr]

lemma holds_expandList (hl : Lists lookup) (h : expandList lookup ms = .ok media') :
    media'.holds medium custom = ms.holds medium (meaning lookup medium custom) := by
  rw [MediaList.holds,MediaList.holds,isEmpty_expandList hl h,any_expandList hl h]

end
end CustomMedia
end Css

namespace Css
open MediaCondition.holds MediaCondition.lowerRanges Bool MediaFeature
namespace Comparison

def compares : Comparison → Int → Int → Bool
  | equal, a, b => a == b
  | greater, a, b => b < a
  | greaterEqual, a, b => b ≤ a
  | less, a, b => a < b
  | lessEqual, a, b => a ≤ b

/-- Whether the one comparison holds of two numbers as the other does of the numbers exchanged. -/
def Mirrors (c d : Comparison) : Prop := ∀ a b, d.compares b a = c.compares a b

lemma mirrors_flip (c : Comparison) : c.Mirrors c.flip := by
  intro a b
  cases c with
  | equal => exact beq_comm
  | greater | greaterEqual | less | lessEqual => rfl

lemma Mirrors.eq_flip {c d : Comparison} (h : c.Mirrors d) : d = c.flip := by
  have hs : ∀ a b, d.compares b a = c.flip.compares b a := fun a b => (h a b).trans (c.mirrors_flip a b).symm
  -- A comparison is told by what it says of a smaller, an equal and a greater number.
  have hl := hs 1 0
  have he := hs 0 0
  have hg := hs 0 1
  generalize c.flip = e at hl he hg ⊢
  revert hl he hg
  cases d <;> cases e <;> decide

end Comparison

def MediaFeature.isRanged (name : String) : Bool := ranged.contains (Text.lower name)

/-- A medium of which plain features hold as the comparisons that they stand for. A strict comparison is
one with a value that is a thousandth off. -/
structure Medium.Compares (medium : Medium) : Prop where
  equal {name : String} (h : MediaFeature.isRanged name = true) (value : Value) :
    medium.feature (.plain (Text.lower name) value) = medium.feature (.range name .equal value)
  least {name : String} (h : MediaFeature.isRanged name = true) (value : Value) :
    medium.feature (.plain ("min-" ++ Text.lower name) value) =
      medium.feature (.range name .greaterEqual value)
  greatest {name : String} (h : MediaFeature.isRanged name = true) (value : Value) :
    medium.feature (.plain ("max-" ++ Text.lower name) value) =
      medium.feature (.range name .lessEqual value)
  above {name : String} (h : MediaFeature.isRanged name = true) {value shifted : Value}
    (hshift : value.shift? 0.001 = some shifted) :
    medium.feature (.plain ("min-" ++ Text.lower name) shifted) =
      medium.feature (.range name .greater value)
  below {name : String} (h : MediaFeature.isRanged name = true) {value shifted : Value}
    (hshift : value.shift? (-0.001) = some shifted) :
    medium.feature (.plain ("max-" ++ Text.lower name) shifted) =
      medium.feature (.range name .less value)
  between {name : String} (h : MediaFeature.isRanged name = true) (start stop : Value)
    {first second mirrored : Comparison} (hmirrors : first.Mirrors mirrored) :
    medium.feature (.interval start first name second stop) =
      (medium.feature (.range name mirrored start) && medium.feature (.range name second stop))

namespace MediaFeature

/-- Whether a comparison cannot be written as a plain feature, on either side of an interval. -/
def isRefused : MediaFeature → Bool
  | range name comparison value => (lowerComparison? name comparison value).isNone
  | interval start first name second stop =>
    (lowerComparison? name first.flip start).isNone || (lowerComparison? name second stop).isNone
  | _ => false

variable {medium : Medium} {custom : String → Bool}
  {name : String} {comparison : Comparison} {value : Value} {f : MediaFeature}

lemma isRanged_of_lowerComparison? (h : lowerComparison? name comparison value = some f) : isRanged name := by
  unfold lowerComparison? at h
  dsimp only at h
  split at h
  · rename_i hr
    exact hr
  · cases h

lemma feature_of_lowerComparison? (hm : medium.Compares) (h : lowerComparison? name comparison value = some f) :
    medium.feature f = medium.feature (range name comparison value) := by
  have hr := isRanged_of_lowerComparison? h
  have hc : ranged.contains (Text.lower name) := hr
  simp only [lowerComparison?,hc,if_true] at h
  cases comparison with
  | equal =>
    cases h
    exact hm.equal hr value
  | greaterEqual =>
    cases h
    exact hm.least hr value
  | lessEqual =>
    cases h
    exact hm.greatest hr value
  | greater =>
    obtain ⟨shifted,hs,rfl⟩ := Option.map_eq_some_iff.mp h
    exact hm.above hr hs
  | less =>
    obtain ⟨shifted,hs,rfl⟩ := Option.map_eq_some_iff.mp h
    exact hm.below hr hs

lemma holds_of_lowerComparison? (hm : medium.Compares) (h : lowerComparison? name comparison value = some f) :
    (MediaCondition.feature f).holds medium custom = medium.feature (range name comparison value) := by
  rw [← feature_of_lowerComparison? hm h]
  obtain ⟨name,value,rfl⟩ := lowerComparison?_eq_some h
  rfl

lemma holds_lower (hm : medium.Compares) (f : MediaFeature) :
    f.lower.holds medium custom = (MediaCondition.feature f).holds medium custom := by
  cases f with
  | plain name value => rfl
  | boolean name => rfl
  | range name comparison value =>
    rw [lower]
    cases h : lowerComparison? name comparison value with
    | none => rfl
    | some f => exact holds_of_lowerComparison? hm h
  | interval start first name second stop =>
    rw [lower]
    cases h : lowerComparison? name first.flip start with
    | none => rfl
    | some f =>
      cases h' : lowerComparison? name second stop with
      | none => rfl
      | some g =>
        have hs : (MediaCondition.feature f).holds medium custom = _ := holds_of_lowerComparison? hm h
        have hst : (MediaCondition.feature g).holds medium custom = _ := holds_of_lowerComparison? hm h'
        have hb : medium.feature (interval start first name second stop) = _ :=
          hm.between (isRanged_of_lowerComparison? h) start stop first.mirrors_flip
        simp only [MediaCondition.holds,holdsAll,Connective.combine,Connective.unit,Bool.and_true] at hs hst ⊢
        rw [hs,hst,← hb]; rfl

lemma hasFeature_lower (f : MediaFeature) : f.lower.hasFeature isRange = f.isRefused := by
  cases f with
  | plain name value => rfl
  | boolean name => rfl
  | range name comparison value =>
    rw [lower,isRefused]
    cases h : lowerComparison? name comparison value with
    | none => rfl
    | some f =>
      obtain ⟨name,value,rfl⟩ := lowerComparison?_eq_some h
      rfl
  | interval start first name second stop =>
    rw [lower,isRefused]
    cases h : lowerComparison? name first.flip start with
    | none => rfl
    | some f =>
      cases h' : lowerComparison? name second stop with
      | none => rfl
      | some g =>
        obtain ⟨_,_,rfl⟩ := lowerComparison?_eq_some h
        obtain ⟨_,_,rfl⟩ := lowerComparison?_eq_some h'
        rfl

end MediaFeature

namespace MediaCondition
variable {medium : Medium} {custom : String → Bool}

lemma holdsAll_append (con : Connective) (cs ds : List MediaCondition) :
    holdsAll medium custom con (cs ++ ds) = con.combine (holdsAll medium custom con cs)
        (holdsAll medium custom con ds) := by
  induction cs with
  | nil => cases con <;> rfl
  | cons c cs ih =>
    rw [List.cons_append,holdsAll,holdsAll,ih]
    cases con with
    | and => exact (and_assoc _ _ _).symm
    | or => exact (or_assoc _ _ _).symm

lemma holdsAll_operands (con : Connective) (c : MediaCondition) :
    holdsAll medium custom con (c.operands con) = c.holds medium custom := by
  have ho : holdsAll medium custom con [c] = c.holds medium custom := by
    rw [holdsAll,holdsAll]
    cases con with
    | and => exact and_true _
    | or => exact or_false _
  cases c with
  | operation inner cs =>
    by_cases hi : inner = con
    · rw [operands,if_pos hi,holds,hi]
    · rw [operands,if_neg hi]
      exact ho
  | feature f => exact ho
  | negation c => exact ho
  | unknown text => exact ho

lemma holds_lowerRanges (hm : medium.Compares) (c : MediaCondition) :
    c.lowerRanges.holds medium custom = c.holds medium custom := by
  induction c using induct with
  | feature f => exact f.holds_lower hm
  | negation c ih => rw [lowerRanges,holds,holds,ih]
  | nil con => rfl
  | cons con c cs hc hcs =>
    rw [lowerRanges,lowerOperands,holds,holdsAll_append,holdsAll_operands,hc]
    exact congrArg (con.combine (c.holds medium custom)) hcs
  | unknown text => rfl

lemma hasRange_lowerRanges (c : MediaCondition) : c.lowerRanges.hasFeature isRange = c.hasFeature isRefused := by
  induction c using induct with
  | feature f => exact f.hasFeature_lower
  | negation c ih => exact ih
  | nil con => rfl
  | cons con c cs hc hcs =>
    rw [lowerRanges,lowerOperands,hasFeature,anyHasFeature_append,anyHasFeature_operands,hc]
    exact congrArg (c.hasFeature isRefused || ·) hcs
  | unknown text => rfl

/-- A condition without signs of comparison means what it meant with them, in every medium that reads
plain features as comparisons. A comparison is left exactly if there is one that cannot be replaced,
and then it is left by a second replacement as well. -/
theorem lowerRanges_means (hmedium : medium.Compares) (custom : String → Bool) (c : MediaCondition) :
    c.lowerRanges.holds medium custom = c.holds medium custom ∧
      (c.lowerRanges.hasFeature MediaFeature.isRange = true ↔
        c.hasFeature MediaFeature.isRefused = true) ∧
      c.lowerRanges.lowerRanges = c.lowerRanges :=
  ⟨holds_lowerRanges hmedium c, by rw [hasRange_lowerRanges], lowerRanges_idem c⟩

end MediaCondition

namespace Medium

def isPixels (p : Float32 → Bool) : Value → Bool
  | [.dimension x "px"] => p x
  | _ => false

def widthCompares (width : Float32) : Comparison → Value → Bool
  | .equal, value => isPixels (· == width) value
  | .greaterEqual, value => isPixels (fun x => decide (x ≤ width)) value
  | .lessEqual, value => isPixels (fun x => decide (width ≤ x)) value
  | .greater, value => (value.shift? 0.001).any (isPixels fun x => decide (x ≤ width))
  | .less, value => (value.shift? (-0.001)).any (isPixels fun x => decide (width ≤ x))

def widthComparison? (name : String) : Option Comparison := if name = "width" then some .equal
  else if name = "min-width" then some .greaterEqual
  else if name = "max-width" then some .lessEqual
  else none

def ofWidth (width : Float32) : Medium where
  mediaType _ := false
  feature
    | .plain name value => (widthComparison? name).any fun c => widthCompares width c value
    | .boolean _ => false
    | .range name comparison value =>
      Text.lower name = "width" && widthCompares width comparison value
    | .interval start first name second stop =>
      Text.lower name = "width" && (widthCompares width first.flip start && widthCompares width second stop)
  unknown _ := false

lemma compares_ofWidth (width : Float32) : (ofWidth width).Compares := by
  have hnm : ∀ name ∈ ranged, widthComparison? name = (if name = "width" then some .equal else none) ∧
      widthComparison? ("min-" ++ name) = (if name = "width" then some .greaterEqual else none) ∧
      widthComparison? ("max-" ++ name) = if name = "width" then some .lessEqual else none := by
    decide
  have hn {name : String} (h : isRanged name) := hnm _ (List.contains_iff_mem.mp h)
  refine ⟨?_,?_,?_,?_,?_,?_⟩
  · intro name h value
    simp only [ofWidth,(hn h).1]
    split <;> simp [*]
  · intro name h value
    simp only [ofWidth,(hn h).2.1]
    split <;> simp [*]
  · intro name h value
    simp only [ofWidth,(hn h).2.2]
    split <;> simp [*]
  · intro name h value shifted hs
    simp only [ofWidth,(hn h).2.1,widthCompares,hs]
    split <;> simp [*]
  · intro name h value shifted hs
    simp only [ofWidth,(hn h).2.2,widthCompares,hs]
    split <;> simp [*]
  · intro name h start stop first second mirrored hm
    simp only [ofWidth,hm.eq_flip]
    cases decide (Text.lower name = "width") <;> rfl

end Medium

namespace MediaCondition

/-- An interval becomes two conditions of the conjunction that it stands in, and an equation with a word
stays as it is. -/
theorem lowerRanges_means_interval : let pixels (x : Float32) : Value := [.dimension x "px"]
    let c : MediaCondition := .negation (.operation .and
      [.feature (.interval (pixels 400) .less "width" .lessEqual (pixels 700)),
       .feature (.range "hover" .equal [.ident "hover"])])
    let medium := Medium.ofWidth 600
    medium.Compares ∧ c.lowerRanges = .negation (.operation .and
        [.feature (.plain "min-width" (pixels (400 + 0.001))),
         .feature (.plain "max-width" (pixels 700)),
         .feature (.range "hover" .equal [.ident "hover"])]) ∧
      c.lowerRanges.holds medium (fun _ => false) = c.holds medium (fun _ => false) ∧
      c.lowerRanges.hasFeature MediaFeature.isRange = true ∧
      c.lowerRanges.lowerRanges = c.lowerRanges := by
  intro pixels c medium
  have hmedium : medium.Compares := Medium.compares_ofWidth 600
  obtain ⟨hmeans, hrange, hidem⟩ := lowerRanges_means hmedium (fun _ => false) c
  exact ⟨hmedium, rfl, hmeans, hrange.mpr rfl, hidem⟩

end MediaCondition
end Css
