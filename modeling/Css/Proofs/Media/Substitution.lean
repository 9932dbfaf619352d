import Css.Proofs.Media.Comparison
import Css.Proofs.Nesting.Enclosing

/-!
# Custom media queries mean what they are replaced by

A name means what its last definition means, whose names mean what theirs mean.
-/
namespace Css
open List
namespace CustomMedia

def Defines (rules : List Rule) (name : String) (ms : MediaList) : Prop :=
  ∃ before location after, rules = before ++ .statement (.customMedia name ms) location :: after ∧
    ∀ r ∈ after, ∀ ms location, r ≠ .statement (.customMedia name ms) location

variable {rules : List Rule} {name : String} {ms : MediaList}

lemma mem_definitions : (name,ms) ∈ definitions rules ↔ ∃ loc, .statement (.customMedia name ms) loc ∈ rules := by
  rw [definitions,mem_reverse,mem_filterMap]
  constructor
  · rintro ⟨r,hr,heq⟩
    split at heq
    · cases heq
      exact ⟨_,hr⟩
    · cases heq
  · rintro ⟨loc,hr⟩
    exact ⟨_,hr,rfl⟩

lemma lookup_definitions_eq_none_iff : (definitions rules).lookup name = none ↔
      ∀ r ∈ rules, ∀ ms location, r ≠ .statement (.customMedia name ms) location := by
  rw [lookup_eq_none_iff]
  constructor
  · rintro h r hr ms location rfl
    simpa using h (name,ms) (mem_definitions.mpr ⟨location,hr⟩)
  · rintro h ⟨other,ms⟩ hm
    obtain ⟨location,hr⟩ := mem_definitions.mp hm
    rw [bne_iff_ne]
    rintro rfl
    exact h _ hr ms location rfl

lemma definitions_cons_of_not_isDefinition {r : Rule} (h : isDefinition r = false) :
    definitions (r :: rules) = definitions rules := by
  cases r with
  | statement s loc =>
    cases s with
    | customMedia => cases h
    | _ => simp [definitions]
  | _ => simp [definitions]

lemma definitions_cons_definition (loc : Location) :
    definitions (.statement (.customMedia name ms) loc :: rules) = definitions rules ++ [(name,ms)] := by
  simp [definitions]

lemma lookup_of_defines (h : Defines rules name ms) : (definitions rules).lookup name = some ms := by
  obtain ⟨pre,loc,post,rfl,hl⟩ := h
  have ha := lookup_definitions_eq_none_iff.mpr hl
  have hap : definitions (pre ++ .statement (.customMedia name ms) loc :: post) =
      definitions post ++ [(name,ms)] ++ definitions pre := by
    simp [definitions]
  rw [hap,lookup_append,lookup_append,ha]
  simp

lemma defines_of_lookup (h : (definitions rules).lookup name = some ms) : Defines rules name ms := by
  induction rules with
  | nil => cases h
  | cons r rs ih =>
    cases hr : isDefinition r with
    | false =>
      rw [definitions_cons_of_not_isDefinition hr] at h
      obtain ⟨pre,loc,post,rfl,hl⟩ := ih h
      exact ⟨r :: pre,loc,post,rfl,hl⟩
    | true =>
      obtain ⟨other,media',loc,rfl⟩ := exists_of_isDefinition hr
      rw [definitions_cons_definition,lookup_append] at h
      cases hrs : (definitions rs).lookup name with
      | some found =>
        -- A later definition of the name hides this one.
        rw [hrs] at h; cases h
        obtain ⟨pre,loc',post,rfl,hl⟩ := ih hrs
        exact ⟨_ :: pre,loc',post,rfl,hl⟩
      | none =>
        rw [hrs,Option.none_or,lookup_cons] at h
        split at h
        · rename_i hn
          cases beq_iff_eq.mp hn
          cases h
          exact ⟨[],loc,rs,rfl,lookup_definitions_eq_none_iff.mp hrs⟩
        · cases h

lemma lookup_definitions_iff : (definitions rules).lookup name = some ms ↔ Defines rules name ms :=
  ⟨defines_of_lookup,lookup_of_defines⟩

end CustomMedia

def Checks.listed : Checks where
  statement _ s := s.definesNothing = false

lemma Checks.established_listed (d : Dialect) (all : List Token) : Checks.listed.Established d all where
  style _ _ _ _ _ _ _ _ := trivial
  nest _ _ _ _ _ _ _ := trivial
  enclosing _ _ _ _ := trivial
  group _ _ := trivial
  statement _ _ h := h.definesSome

lemma StyleSheet.ne_nil_of_defines {src : String} {opts : ParseOptions}
    {sheet : StyleSheet} (h : StyleSheet.parse src opts = .ok sheet) {name : String}
    {ms : MediaList} (hd : CustomMedia.Defines sheet.rules name ms) : ms ≠ [] := by
  have hl := StyleSheet.allHold_of_established (Checks.established_listed _ _) h
  obtain ⟨pre,loc,post,hr,_⟩ := hd
  have hm : .statement (.customMedia name ms) loc ∈ sheet.rules := by
    rw [hr]
    exact mem_append_right _ mem_cons_self
  exact isEmpty_eq_false_iff.mp (Rule.allHold_iff.mp hl _ hm)

/-- The name means by its definition among the rules that the medium is so. A name that is defined by
itself means nothing. -/
inductive CustomMedia.Denotes (rules : List Rule) (medium : Medium) : String → Bool → Prop where
  | intro {name : String} {media : MediaList} (custom : String → Bool) :
      Defines rules name media →
      (∀ next, media.hasFeature (isReferenceTo next) = true →
        Denotes rules medium next (custom next)) →
      Denotes rules medium name (media.holds medium custom)

def MediaList.Means (rules : List Rule) (medium : Medium) (media : MediaList) (b : Bool) : Prop :=
  ∃ custom : String → Bool, (∀ name, media.hasFeature (CustomMedia.isReferenceTo name) = true →
      CustomMedia.Denotes rules medium name (custom name)) ∧
    media.holds medium custom = b

section
variable {rules : List Rule} {medium : Medium}

lemma CustomMedia.Denotes.unique {name : String} {b b' : Bool}
    (h : Denotes rules medium name b) (h' : Denotes rules medium name b') : b = b' := by
  induction h generalizing b' with
  | intro custom hd _ ih =>
    cases h' with
    | intro custom' hd' hnm' =>
      have hs := (lookup_definitions_iff.mpr hd).symm.trans (lookup_definitions_iff.mpr hd')
      cases hs
      exact MediaList.holds_congr fun next hn => ih next hn (hnm' next hn)

namespace MediaList

lemma Means.unique {media : MediaList} {b b' : Bool} (h : media.Means rules medium b)
    (h' : media.Means rules medium b') : b = b' := by
  obtain ⟨custom,hn,rfl⟩ := h
  obtain ⟨custom',hn',rfl⟩ := h'
  exact holds_congr fun name hnm => (hn name hnm).unique (hn' name hnm)

lemma means_of_no_reference {media : MediaList}
    (h : media.hasFeature CustomMedia.isReference = false) (custom : String → Bool) :
    media.Means rules medium (media.holds medium custom) := by
  refine ⟨custom,fun name hn => ?_,rfl⟩
  rw [not_isReferenceTo h name] at hn; cases hn

end MediaList
end

namespace CustomMedia
variable {rules : List Rule} {medium : Medium}

lemma lookup_setAside_self (defs : MediaDefinitions) (name : String) : (setAside defs name).lookup name = none := by
  rw [lookup_eq_none_iff]
  intro d hd
  rw [bne_comm]
  exact (mem_filter.mp hd).2

lemma lookup_setAside_of_ne (defs : MediaDefinitions) {aside name : String}
    (h : name ≠ aside) : (setAside defs aside).lookup name = defs.lookup name := by
  induction defs with
  | nil => rfl
  | cons d rest ih =>
    obtain ⟨other,media⟩ := d
    unfold setAside at ih ⊢
    by_cases ho : other = aside
    · have hf : (name == other) = false := by simpa [ho] using h
      rw [filter_cons_of_neg (by simpa using ho),ih,lookup_cons,hf]
    · rw [filter_cons_of_pos (by simpa using ho),lookup_cons,lookup_cons,ih]

lemma lookup_of_setAside {defs : MediaDefinitions} {aside name : String}
    {media : MediaList} (h : (setAside defs aside).lookup name = some media) :
    defs.lookup name = some media := by
  by_cases hn : name = aside
  · rw [hn,lookup_setAside_self] at h; cases h
  · rwa [lookup_setAside_of_ne defs hn] at h

def AreDefined (rules : List Rule) (definitions : MediaDefinitions) : Prop :=
  ∀ name media, definitions.lookup name = some media → Defines rules name media

lemma areDefined_setAside {defs : MediaDefinitions} (h : AreDefined rules defs) (name : String) :
    AreDefined rules (setAside defs name) :=
  fun next media hn => h next media (lookup_of_setAside hn)

lemma denotes_of_lookup (hl : ∀ name media, Defines rules name media → media ≠ [])
    (custom : String → Bool) (defs : MediaDefinitions) (entered : List String)
    (name : String) (hd : AreDefined rules defs) {media : MediaList}
    (h : lookup defs entered name = .ok media) :
    media ≠ [] ∧ Denotes rules medium name (media.holds medium custom) := by
  rw [lookup] at h
  split at h
  · rename_i defined hlk
    have := length_setAside_lt hlk
    -- The defs that are left are still some of those that count.
    have hn : ∀ next media, lookup (setAside defs name) (name :: entered) next = .ok media →
        media ≠ [] ∧ Denotes rules medium next (media.holds medium custom) :=
      fun next _ => denotes_of_lookup hl custom _ _ next (areDefined_setAside hd name)
    have hnn : Lists (lookup (setAside defs name) (name :: entered)) := fun next media hm => (hn next media hm).1
    have hdf := hd name defined hlk
    constructor
    · have he := isEmpty_expandList hnn h
      rw [isEmpty_eq_false_iff.mpr (hl name defined hdf)] at he
      exact isEmpty_eq_false_iff.mp he
    · rw [holds_expandList hnn h]
      refine .intro _ hdf fun next hrf => ?_
      obtain ⟨media',hm'⟩ := ok_of_expandList h hrf
      rw [meaning_of_ok hm']
      exact (hn next media' hm').2
  · split at h <;> cases h
termination_by defs.length

lemma means_of_expandList (hls : ∀ name media, Defines rules name media → media ≠ []) {pre post : MediaList}
    (h : expandList (lookup (definitions rules) []) pre = .ok post) (custom : String → Bool) :
    pre.Means rules medium (post.holds medium custom) := by
  have hd : AreDefined rules (definitions rules) := fun _ _ => lookup_definitions_iff.mp
  have hl : ∀ name media, lookup (definitions rules) [] name = .ok media →
      media ≠ [] ∧ Denotes rules medium name (media.holds medium custom) :=
    fun name _ => denotes_of_lookup hls custom _ _ name hd
  refine ⟨_,fun name hn => ?_,(holds_expandList (fun name media h => ?_) h).symm⟩
  · obtain ⟨media,hm⟩ := ok_of_expandList h hn
    rw [meaning_of_ok hm]
    exact (hl name media hm).2
  · exact (hl name media h).1

end CustomMedia

def Group.mapMedia (f : MediaList → MediaList) : Group → Group
  | media query => media (f query)
  | g => g

def Statement.mapMedia (f : MediaList → MediaList) : Statement → Statement
  | importSheet url layer supports media => importSheet url layer supports (f media)
  | s => s

namespace Rule

def mediaChange (f : MediaList → MediaList) : Visitor Id where
  block b := b
  group g _ := g.mapMedia f
  statement s _ := s.mapMedia f

def media : Rule → List MediaList
  | style _ rules => mediaOf rules
  | nest _ rules => mediaOf rules
  | group g rules _ => g.media?.toList ++ mediaOf rules
  | statement s _ => s.media?.toList
where
  mediaOf : List Rule → List MediaList
    | [] => []
    | r :: rs => r.media ++ mediaOf rs

structure Visitor.RelatesMedia {ε : Type} (v : Visitor (Except ε))
    (R : MediaList → MediaList → Prop) : Prop where
  group : ∀ g g' location, v.group g location = .ok g' →
    List.Forall₂ R g.media?.toList g'.media?.toList
  statement : ∀ s s' location, v.statement s location = .ok s' →
    List.Forall₂ R s.media?.toList s'.media?.toList

section
variable {ε : Type} {v : Visitor (Except ε)} {R : MediaList → MediaList → Prop}

lemma mediaOf_of_traverseList (hv : v.RelatesMedia R) (rules : List Rule)
    {rules' : List Rule} (h : traverseList v rules = .ok rules') :
    List.Forall₂ R (media.mediaOf rules) (media.mediaOf rules') := by
  induction rules using induct generalizing rules' with
  | nil =>
    cases h
    exact .nil
  | cons r rs ihr ih =>
    obtain ⟨r',rs',hr,hrs,rfl⟩ := ok_of_bind₂_ok h
    refine rel_append ?_ (ih hrs)
    cases r with
    | style | nest =>
      obtain ⟨b',rules',-,hrl,rfl⟩ := ok_of_bind₂_ok hr
      exact ihr hrl
    | group g rules location =>
      obtain ⟨g',rules',hg,hrl,rfl⟩ := ok_of_bind₂_ok hr
      exact rel_append (hv.group g g' location hg) (ihr hrl)
    | statement s location =>
      obtain ⟨s',hs,hr⟩ := ok_of_bind_ok hr
      cases hr
      exact hv.statement s s' location hs

end
end Rule

namespace CustomMedia
open Rule.media
variable {rules rules' : List Rule}

lemma expandList_of_expand {defs : MediaDefinitions} {loc : Location}
    {media media' : MediaList} (h : visitor.expand defs loc media = .ok media') :
    expandList (lookup defs []) media = .ok media' := by
  unfold visitor.expand at h
  cases he : expandList (lookup defs []) media with
  | error e =>
    rw [he] at h; cases h
  | ok result =>
    rw [he] at h; cases h
    rfl

lemma relatesMedia_visitor (defs : MediaDefinitions) : (visitor defs).RelatesMedia fun pre post =>
      expandList (lookup defs []) pre = .ok post where
  group g g' location h := by
    cases g with
    | media query =>
      obtain ⟨query',hq,h⟩ := ok_of_bind_ok h
      cases h
      exact .cons (expandList_of_expand hq) .nil
    | supports condition =>
      cases h
      exact .nil
    | layer name =>
      cases h
      exact .nil
  statement s s' location h := by
    cases s with
    | importSheet url layer supports media =>
      obtain ⟨media',hm,h⟩ := ok_of_bind_ok h
      cases h
      exact .cons (expandList_of_expand hm) .nil
    | keyframes | property | fontFace | page | namespaceOf | layers | customMedia | unknown =>
      cases h
      exact .nil

lemma mediaOf_filter (rules : List Rule) : mediaOf (rules.filter fun r => !isDefinition r) = mediaOf rules := by
  induction rules with
  | nil => rfl
  | cons r rs ih =>
    rw [mediaOf]
    cases hr : isDefinition r with
    | false =>
      rw [filter_cons_of_pos (by simp [hr]),mediaOf,ih]
    | true =>
      obtain ⟨name,media,location,rfl⟩ := exists_of_isDefinition hr
      rw [filter_cons_of_neg (by simp [hr]),ih]; rfl

lemma mediaOf_of_resolve (h : resolve rules = .ok rules') :
    List.Forall₂ (fun pre post => expandList (lookup (definitions rules) []) pre = .ok post)
      (mediaOf rules) (mediaOf rules') := by
  have hm := Rule.mediaOf_of_traverseList (relatesMedia_visitor (definitions rules)) _ h
  rwa [mediaOf_filter] at hm

def replaced (rules : List Rule) (media : MediaList) : MediaList :=
  (expandList (lookup (definitions rules) []) media).toOption.getD media

lemma change_eq (rs : List Rule) : change rs = Rule.mediaChange (replaced rs) := by
  have hg : ∀ g location, (change rs).group g location = g.mapMedia (replaced rs) := by
    intro g location
    cases g with
    | media query =>
      simp only [change,Rule.Visitor.orSame,visitor,visitor.expand,Group.mapMedia,replaced]
      cases expandList (lookup (definitions rs) []) query <;> rfl
    | supports condition => rfl
    | layer name => rfl
  have hs : ∀ s location, (change rs).statement s location = s.mapMedia (replaced rs) := by
    intro s location
    cases s with
    | importSheet url layer supports media =>
      simp only [change,Rule.Visitor.orSame,visitor,visitor.expand,Statement.mapMedia,replaced]
      cases expandList (lookup (definitions rs) []) media <;> rfl
    | keyframes | property | fontFace | page | namespaceOf | layers | customMedia | unknown => rfl
  exact congrArg₂ (Rule.Visitor.mk fun b => b) (funext fun g => funext (hg g)) (funext fun s => funext (hs s))

/-- To replace the names of custom media queries is to drop their definitions and to change nothing
else but the queries of groups and imports. Each list of them means one thing, and it means the same
once the names in it are replaced. No name is left then, and no definition. -/
theorem means_resolve {source : String} {options : ParseOptions} {sheet : StyleSheet}
    (hparse : StyleSheet.parse source options = .ok sheet)
    (h : resolve sheet.rules = .ok rules') :
    (∃ f, rules' = Rule.visit.visitAll (Rule.mediaChange f)
      (sheet.rules.filter fun r => !isDefinition r)) ∧
    List.Forall₂
      (fun before after : MediaList => after.hasFeature isReference = false ∧ ∀ medium,
          (∃! b, before.Means sheet.rules medium b) ∧
            ∀ b, before.Means sheet.rules medium b ↔ after.Means rules' medium b)
      (Rule.media.mediaOf sheet.rules) (Rule.media.mediaOf rules') ∧
    ∀ inStyle name media location,
      ¬Rule.Occurs rules' inStyle (.statement (.customMedia name media) location) := by
  refine ⟨⟨replaced sheet.rules, ?_⟩, ?_, ?_⟩
  · rw [← change_eq]
    exact resolve_eq h
  · refine (mediaOf_of_resolve h).imp fun before after hexpand => ?_
    have hnone : after.hasFeature isReference = false :=
      no_reference_of_expandList (fun name _ => no_reference_of_lookup _ _ name) hexpand
    refine ⟨hnone, fun medium => ?_⟩
    have hbefore : before.Means sheet.rules medium (after.holds medium fun _ => false) :=
      means_of_expandList (fun _ _ => StyleSheet.ne_nil_of_defines hparse) hexpand _
    have hafter : after.Means rules' medium (after.holds medium fun _ => false) :=
      MediaList.means_of_no_reference hnone _
    refine ⟨⟨_, hbefore, fun b hb => hb.unique hbefore⟩, fun b => ⟨fun hb => ?_, fun hb => ?_⟩⟩
    · rwa [hb.unique hbefore]
    · rwa [hb.unique hafter]
  · intro inStyle name media location hoccurs
    have hresolved := allHold_resolve h (StyleSheet.allHold_rules hparse)
    obtain ⟨scope, _, hholds⟩ := Rule.holds_of_occurs hresolved hoccurs
    exact hholds.2.2 name media rfl

/-- Of two definitions the last one counts, one defined by another later one, and a list of queries
takes the place of a name in a list. -/
theorem means_resolve_shadowed : ∃ sheet rules',
      StyleSheet.parse
          ("@custom-media --a (x);@media (--a),screen and (--b)\x7b.c\x7bx:y\x7d\x7d" ++
            "@custom-media --b (y);@custom-media --a (--b),print;") { customMedia := true } =
        .ok sheet ∧
      resolve sheet.rules = .ok rules' ∧
      (Rule.media.mediaOf sheet.rules).length = 1 ∧
      List.Forall₂
        (fun before after : MediaList => ∀ medium b,
          before.Means sheet.rules medium b ↔ after.Means rules' medium b)
        (Rule.media.mediaOf sheet.rules) (Rule.media.mediaOf rules') := by
  obtain ⟨sheet, hparse, hcheck⟩ := Rule.ok_of_any
    (x := StyleSheet.parse
      ("@custom-media --a (x);@media (--a),screen and (--b)\x7b.c\x7bx:y\x7d\x7d" ++
        "@custom-media --b (y);@custom-media --a (--b),print;") { customMedia := true })
    (p := fun sheet => (resolve sheet.rules).toOption.any fun _ =>
      (Rule.media.mediaOf sheet.rules).length == 1)
    (by decide +kernel)
  obtain ⟨rules', hresolve, hlength⟩ := Rule.ok_of_any hcheck
  refine ⟨sheet, rules', hparse, hresolve, beq_iff_eq.mp hlength, ?_⟩
  exact (means_resolve hparse hresolve).2.1.imp fun _ _ hmeans medium => (hmeans.2 medium).2

end CustomMedia
end Css
