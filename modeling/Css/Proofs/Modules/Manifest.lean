import Css.Proofs.Modules.Scoping
import Mathlib.Data.List.Basic
import Mathlib.Data.List.Find

/-!
# What a file composes and refers to

The classes that a class is composed of are those that the rules of the class name, one rule after the
other. The names of other files are found again by their placeholders, as long as no two of them are
written alike.
-/
namespace Css
open List Selector Option Css.Part StyleBlock

def Rule.styles : Rule → List StyleBlock
  | style b rules => b :: stylesIn rules
  | nest b rules => b :: stylesIn rules
  | group _ rules _ => stylesIn rules
  | statement .. => []
where
  stylesIn : List Rule → List StyleBlock
    | [] => []
    | r :: rs => r.styles ++ stylesIn rs

namespace Modules
open Rule.occurrences Rule.styles

/-- A selector of a style rule has the class, and not inside of `:global`. -/
def HasClass (rules : List Rule) (name : String) : Prop :=
  ∃ b ∈ stylesIn rules, .className name ∈ Part.occurrences.occurrencesInAll b.selectors

def referencesOf (own : String → String) (c : Composes) : List Reference := c.names.map fun name =>
    match c.source with
    | none => .here (own name)
    | some .global => .global name
    | some (.file specifier) => .file name specifier

/-- What rules compose a class of: for each selector that is the class, in order, what its rule names. -/
def composedOf (own : String → String) (rules : List Rule) (name : String) : List Reference :=
  (stylesIn rules).flatMap fun b => b.selectors.flatMap fun s =>
    if s.singleClass? = some name then b.composes.flatMap (referencesOf own) else []

section
variable {rules : List Rule} {dashed : Bool} {o : Occurrence}

lemma flatMap_eq_nil {β : Type} {f : Occurrence → List β} {places : List Occurrence}
    (hf : ∀ o, o.isDeclared → f o = []) (h : ∀ o ∈ places, o.isDeclared) : places.flatMap f = [] :=
  flatMap_eq_nil_iff.mpr fun o ho => hf o (h o ho)

lemma flatMap_occurrencesIn {β : Type} {f : Occurrence → List β}
    (hf : ∀ o, o.isDeclared → f o = []) (rules : List Rule) : (occurrencesIn dashed rules).flatMap f =
      (stylesIn rules).flatMap fun b =>
        (b.composition ++ occurrences.occurrencesInAll b.selectors).flatMap f := by
  have hblock (b : StyleBlock) : (b.occurrences dashed).flatMap f =
      (b.composition ++ occurrences.occurrencesInAll b.selectors).flatMap f := by
    rw [StyleBlock.occurrences,flatMap_append,flatMap_eq_nil hf (Declaration.isDeclared_all _),append_nil]
  induction rules using Rule.induct with
  | nil => rfl
  | cons r rs hr ih =>
    rw [occurrencesIn,stylesIn,flatMap_append,flatMap_append,← ih]
    congr 1
    cases r with
    | style b | nest b => rw [Rule.occurrences,flatMap_append,hblock,Rule.styles,flatMap_cons,hr]
    | group => exact hr
    | statement s => exact flatMap_eq_nil hf s.isDeclared

lemma flatMap_compositions {β : Type} {f : Occurrence → List β}
    (hf : ∀ o, o.isComposition = false → f o = []) (rs : List Rule) :
    (occurrencesIn dashed rs).flatMap f = (stylesIn rs).flatMap fun b => b.composition.flatMap f := by
  rw [flatMap_occurrencesIn fun o ho => hf o (Occurrence.not_isComposition ho)]
  refine flatMap_congr fun b _ => ?_
  rw [flatMap_append,append_right_eq_self,flatMap_eq_nil_iff]
  exact fun o ho => hf o (not_isComposition_selectors _ o ho)

lemma mem_occurrencesIn_iff (ho : o.isDeclared = false) : o ∈ occurrencesIn dashed rules ↔
      ∃ b ∈ stylesIn rules, o ∈ b.composition ++ occurrences.occurrencesInAll b.selectors := by
  have hmem (places : List Occurrence) : o ∈ places ↔ o ∈ places.flatMap fun o => if o.isDeclared then [] else [o] := by
    rw [mem_flatMap]
    constructor
    · exact fun h => ⟨o,h,by simp [ho]⟩
    · rintro ⟨p,hp,h⟩
      split at h
      · cases h
      · exact mem_singleton.mp h ▸ hp
  rw [hmem,flatMap_occurrencesIn (fun _ h => if_pos h),mem_flatMap]
  simp only [← hmem]

lemma hasClass_iff {name : String} : HasClass rules name ↔ .className name ∈ occurrencesIn dashed rules := by
  rw [mem_occurrencesIn_iff rfl]
  refine exists_congr fun b => and_congr_right fun _ => ?_
  rw [mem_append,or_iff_right]
  intro h
  unfold composition at h
  split at h
  · cases h
  · split at h <;> simp at h

end

lemma referencesOf_congr {f g : String → String} {c : Composes}
    (h : c.source = none → ∀ name ∈ c.names, f name = g name) :
    referencesOf f c = referencesOf g c := by
  refine map_congr_left fun name hn => ?_
  split
  · next hs => rw [h hs name hn]
  · rfl
  · rfl

lemma composedOf_congr {f g : String → String} {rs : List Rule}
    (h : ∀ b ∈ stylesIn rs, ∀ c ∈ b.composes, c.source = none → ∀ name ∈ c.names, f name = g name)
    (name : String) : composedOf f rs name = composedOf g rs name := by
  refine flatMap_congr fun b hb => flatMap_congr fun s _ => ?_
  rw [flatMap_congr fun c hc => referencesOf_congr (h b hb c hc)]

lemma exists_of_here_mem {own : String → String} {rs : List Rule} {name generated : String}
    (h : .here generated ∈ composedOf own rs name) : ∃ b ∈ stylesIn rs, ∃ c ∈ b.composes,
      c.source = none ∧ ∃ target ∈ c.names, own target = generated := by
  obtain ⟨b,hb,h⟩ := mem_flatMap.mp h
  obtain ⟨s,-,h⟩ := mem_flatMap.mp h
  split at h
  · obtain ⟨c,hc,h⟩ := mem_flatMap.mp h
    obtain ⟨target,ht,heq⟩ := mem_map.mp h
    split at heq
    · next hs => exact ⟨b,hb,c,hc,hs,target,ht,Reference.here.inj heq⟩
    · cases heq
    · cases heq
  · cases h

namespace Scoping
variable {s : Scoping} {rules : List Rule} {scope : Scope} {b : StyleBlock} {name : String}

lemma references_eq (c : Composes) : s.references c = referencesOf s.naming.generate c := by
  refine map_congr_left fun name _ => ?_
  unfold referenceOf
  cases c.source with
  | none => rfl
  | some source => cases source <;> rfl

lemma eq_exportOf (hd : s.Describes (occurrencesIn s.dashed rules) scope) {e : String × Export} (he : e ∈ scope.exports) :
    e.2 = s.exportOf (occurrencesIn s.dashed rules) e.1 := by
  have hl := Exports.lookup_of_mem scope.exports hd.keys_nodup he
  rw [hd.lookup_eq,if_pos (mem_exports hd he).1] at hl
  exact (some.inj hl).symm

lemma exists_export (hd : s.Describes (occurrencesIn s.dashed rules) scope)
    (h : .className name ∈ occurrencesIn s.dashed rules) :
    ∃ e, (name,e) ∈ scope.exports ∧ e.name = s.naming.generate name := by
  have hm : name ∈ exportedNames (occurrencesIn s.dashed rules) := mem_filterMap.mpr ⟨_,h,rfl⟩
  have hl := hd.lookup_eq name
  rw [if_pos hm] at hl
  obtain ⟨pre,post,heq,-⟩ := lookup_eq_some_iff.mp hl
  exact ⟨_,heq ▸ mem_append_right _ mem_cons_self,rfl⟩

/-- A rule that composes classes has selectors that are classes, if no rule composes where it may not. -/
lemma composition_eq (hp : ∀ first, .misplaced first ∉ occurrencesIn s.dashed rules)
    (hb : b ∈ stylesIn rules) (hc : b.composes ≠ []) : ∃ classes : List String,
      b.selectors = classes.map (fun name => [.className name]) ∧
        b.composition = .composed b.composes :: classes.map fun name => .composer name b.composes := by
  obtain ⟨first,rest,hcs⟩ := exists_cons_of_ne_nil hc
  have hm : ∀ o ∈ b.composition, ∀ first, o ≠ .misplaced first := by
    rintro o ho first rfl
    exact hp first ((mem_occurrencesIn_iff rfl).mpr ⟨b,hb,mem_append_left _ ho⟩)
  unfold composition at hm ⊢
  rw [hcs] at hm ⊢
  cases hs : b.selectors.mapM singleClass? with
  | none =>
    rw [hs] at hm
    exact absurd rfl (hm _ (mem_singleton.mpr rfl) first)
  | some classes => exact ⟨classes,eq_of_singleClasses hs,rfl⟩

lemma composesOf_eq (hp : ∀ first, .misplaced first ∉ occurrencesIn s.dashed rules)
    (name : String) : s.composesOf (occurrencesIn s.dashed rules) name = composedOf s.naming.generate rules name := by
  rw [composesOf,flatMap_compositions (fun o ho => by cases o <;> first | rfl | cases ho),composedOf]
  refine flatMap_congr fun b hb => ?_
  by_cases hc : b.composes = []
  · simp [composition,hc]
  · obtain ⟨classes,hsel,hcm⟩ := composition_eq hp hb hc
    rw [hcm,hsel,flatMap_cons,flatMap_map,flatMap_map]
    simp only [singleClass?,some.injEq,nil_append]
    simp only [funext references_eq]

lemma className_mem (hd : s.Describes (occurrencesIn s.dashed rules) scope)
    (ht : s.checkTargets scope = .ok ()) (hb : b ∈ stylesIn rules) {c : Composes} (hc : c ∈ b.composes)
    (hs : c.source = none) (hn : name ∈ c.names) : .className name ∈ occurrencesIn s.dashed rules := by
  obtain ⟨classes,-,hcm⟩ := composition_eq hd.placed hb (ne_nil_of_mem hc)
  have hm : .composed b.composes ∈ occurrencesIn s.dashed rules :=
    (mem_occurrencesIn_iff rfl).mpr ⟨b,hb,mem_append_left _ (by rw [hcm]; exact mem_cons_self)⟩
  have htarget : ⟨name,c.location,c.span⟩ ∈ scope.targets := by
    rw [hd.targets_eq]
    refine mem_flatMap.mpr ⟨_,hm,mem_flatMap.mpr ⟨c,hc,?_⟩⟩
    rw [targets,hs]
    exact mem_map_of_mem hn
  rw [← hd.mem_classes]
  unfold checkTargets at ht
  split at ht
  · cases ht
  · next hf => simpa using find?_eq_none.mp hf _ htarget

end Scoping

/-- Compositions are resolved. A class is composed of what the rules of the class name, in order, and a
name without a source is that of a class of the file. If it is none, or if a rule composes classes and
has a selector that is not one class, the names cannot be scoped. -/
theorem scopeRules_composes (filename : String) (options : ModuleOptions) (rules : List Rule) :
    (∀ renamed scope, scopeRules filename options rules = .ok (renamed, scope) →
      ∀ e ∈ scope.exports, e.2.composes = composedOf scope.exports.nameOf rules e.1 ∧
        ∀ name, .here name ∈ e.2.composes → ∃ c ∈ scope.exports, c.2.name = name ∧ HasClass rules c.1) ∧
    ∀ b ∈ stylesIn rules,
      (∃ c ∈ b.composes, c.source = none ∧ ∃ name ∈ c.names, ¬HasClass rules name) ∨
        (b.composes ≠ [] ∧ ∃ selector ∈ b.selectors, selector.singleClass? = none) →
      ∃ e, scopeRules filename options rules = .error e := by
  constructor
  · intro renamed scope h e he
    obtain ⟨s,-,-,-,hd,-,ht⟩ := Scoping.exists_of_scopeRules h
    have hcomposes : e.2.composes = composedOf s.naming.generate rules e.1 := by
      rw [Scoping.eq_exportOf hd he]
      exact Scoping.composesOf_eq hd.placed e.1
    have hown : ∀ b ∈ stylesIn rules, ∀ c ∈ b.composes, c.source = none → ∀ name ∈ c.names,
        s.naming.generate name = scope.exports.nameOf name := fun b hb c hc hs name hn =>
      Scoping.nameOf_eq hd _ (Scoping.className_mem hd ht hb hc hs hn) name rfl
    refine ⟨hcomposes.trans (composedOf_congr hown e.1),fun name hname => ?_⟩
    rw [hcomposes] at hname
    obtain ⟨b,hb,c,hc,hs,target,htarget,rfl⟩ := exists_of_here_mem hname
    have hclass := Scoping.className_mem hd ht hb hc hs htarget
    obtain ⟨exported,hmem,heq⟩ := Scoping.exists_export hd hclass
    exact ⟨(target, exported),hmem,heq,hasClass_iff.mpr hclass⟩
  · rintro b hb hbad
    cases h : scopeRules filename options rules with
    | error e => exact ⟨e,rfl⟩
    | ok result =>
      obtain ⟨renamed,scope⟩ := result
      obtain ⟨s,-,-,-,hd,-,ht⟩ := Scoping.exists_of_scopeRules h
      rcases hbad with ⟨c,hc,hs,name,hn,hclass⟩ | ⟨hne,selector,hsel,hsingle⟩
      · exact absurd (hasClass_iff.mpr (Scoping.className_mem hd ht hb hc hs hn)) hclass
      · obtain ⟨classes,hclasses,-⟩ := Scoping.composition_eq hd.placed hb hne
        rw [hclasses] at hsel
        obtain ⟨name,-,rfl⟩ := mem_map.mp hsel
        cases hsingle

def composed : List Rule :=
  [.style ⟨[[.className "a"]],[],[⟨["b"],none,⟨0,0⟩,⟨0,0⟩⟩,⟨["c"],some .global,⟨0,0⟩,⟨0,0⟩⟩],⟨0,0⟩⟩ [],
    .style ⟨[[.className "b"],[.className "a"]],[],[⟨["d"],some (.file "f.css"),⟨0,0⟩,⟨0,0⟩⟩],⟨0,0⟩⟩ []]

theorem scopeRules_composes_two :
    (∃ renamed scope, scopeRules "a.css" ⟨"x_[local]",true⟩ composed = .ok (renamed, scope) ∧
      ∃ e, ("a", e) ∈ scope.exports ∧ e.composes = [.here "x_b", .global "c", .file "d" "f.css"]) ∧
    ∃ e, scopeRules "a.css" ⟨"x_[local]",true⟩ (composed.take 1) = .error e := by
  constructor
  · have hscope : ∃ renamed scope, scopeRules "a.css" ⟨"x_[local]",true⟩ composed = .ok (renamed, scope) ∧
        ∃ e, ("a", e) ∈ scope.exports ∧ scope.exports.nameOf "b" = "x_b" := by
      unfold scopeRules
      rw [read_prefixed]
      exact ⟨_,_,rfl,_,mem_cons_self,rfl⟩
    obtain ⟨renamed,scope,hscope,e,he,hb⟩ := hscope
    refine ⟨renamed,scope,hscope,e,he,?_⟩
    have hcomposes := ((scopeRules_composes _ _ _).1 renamed scope hscope _ he).1
    rw [hcomposes,← hb]
    rfl
  · refine (scopeRules_composes _ _ _).2 _ mem_cons_self (.inl ⟨_,mem_cons_self,rfl,_,mem_cons_self,?_⟩)
    rintro ⟨b,hb,hclass⟩
    rw [mem_singleton.mp hb] at hclass
    exact absurd (mem_singleton.mp hclass) (by simp)

@[ext]
structure Foreign where
  specifier : String
  name : String
deriving DecidableEq

namespace Foreign

def reference (f : Foreign) : Reference := .file f.name f.specifier

variable (filename : String)

/-- The text by which a name of another file is known. -/
def key (f : Foreign) : String := filename ++ ":" ++ f.specifier ++ ":" ++ f.name

def hash (f : Foreign) : List Char := (Blake3.hexDigest (f.key filename)).take 8

def placeholder (f : Foreign) : String := placeholderOf filename f.specifier f.name

/-- Names of other files have placeholders of their own, by which a table has them. -/
structure Kept (foreigns : List Foreign) (refs : References) : Prop where
  ne : ∀ a ∈ foreigns, ∀ b ∈ foreigns, a ≠ b → a.placeholder filename ≠ b.placeholder filename
  lookup_eq : ∀ f ∈ foreigns, refs.lookup (f.placeholder filename) = some f.reference

end Foreign

def foreign? : Occurrence → Option Foreign
  | .foreign specifier name => some ⟨specifier,name⟩
  | _ => none

def foreignsIn (dashed : Bool) (rules : List Rule) : List Foreign := (occurrencesIn dashed rules).filterMap foreign?

lemma lookup_insert (refs : References) (placeholder key : String) (r : Reference) :
    List.lookup key (refs.insert placeholder r) =
      if key = placeholder then some r else refs.lookup key := by
  have hf : List.lookup key (refs.filter fun e => e.1 != placeholder) =
      if key = placeholder then none else refs.lookup key := by
    induction refs with
    | nil => simp
    | cons e rest ih =>
      by_cases he : e.1 = placeholder <;> by_cases hk : key = e.1 <;> grind
  rw [References.insert,lookup_append,hf]
  split
  · simp_all
  · grind

namespace Scoping
variable (s : Scoping)

def refer (refs : References) (f : Foreign) : References := refs.insert (f.placeholder s.filename) f.reference

variable {s} {scope scope' : Scope}

lemma references_exportName (scope : Scope) {name : String} (h : s.exportName scope name = .ok scope') :
    scope'.references = scope.references := by
  unfold exportName at h
  split at h
  · cases h
    rfl
  · split at h
    · cases h
    · cases h
      rfl

lemma references_step {o : Occurrence} (h : s.step scope o = .ok scope') :
    scope'.references = (foreign? o).toList.foldl s.refer scope.references := by
  cases o with
  | className name =>
    exact references_exportName { scope with classes := name :: scope.classes } h
  | definition name => exact references_exportName scope h
  | foreign | composed =>
    cases h
    rfl
  | use name | composer name =>
    obtain ⟨between,he,rfl⟩ := ok_of_map_ok h
    have hr : between.references = scope.references := references_exportName scope he
    exact hr
  | misplaced => cases h

lemma references_foldlM {places : List Occurrence} (h : places.foldlM s.step scope = .ok scope') :
    scope'.references = (places.filterMap foreign?).foldl s.refer scope.references := by
  induction places generalizing scope with
  | nil =>
    cases h
    rfl
  | cons o places ih =>
    rw [foldlM_cons] at h
    obtain ⟨between,hs,h⟩ := ok_of_bind_ok h
    rw [ih h,references_step hs,filterMap_cons]
    cases foreign? o <;> rfl

/-- The table has the last name that was put into it under a placeholder. -/
lemma lookup_foldl_refer (foreigns : List Foreign) (refs : References) (key : String) :
    List.lookup key (foreigns.foldl s.refer refs) =
      ((foreigns.reverse.find? fun f => f.placeholder s.filename = key).map Foreign.reference).or (refs.lookup key) := by
  induction foreigns generalizing refs with
  | nil => rfl
  | cons f rest ih =>
    rw [foldl_cons,ih,refer,lookup_insert,reverse_cons,find?_append,Option.map_or,Option.or_assoc]
    congr 1
    by_cases hk : key = f.placeholder s.filename
    · simp [hk]
    · simp [hk,Ne.symm hk]

end Scoping

namespace Foreign
variable {filename : String} {a b : Foreign}

lemma placeholder_eq_iff (hash : a.hash filename = b.hash filename → a.key filename = b.key filename) :
    a.placeholder filename = b.placeholder filename ↔ a.key filename = b.key filename := by
  constructor
  · intro h
    exact hash (String.ofList_inj.mp ((String.append_right_inj "--").mp h))
  · intro h
    exact congrArg (fun key => "--" ++ String.ofList ((Blake3.hexDigest key).take 8)) h

lemma eq_of_key_eq (ha : ':' ∉ a.name.toList) (hb : ':' ∉ b.name.toList)
    (h : a.key filename = b.key filename) : a = b := by
  have hlists : (filename ++ ":" ++ a.specifier).toList ++ ':' :: a.name.toList =
      (filename ++ ":" ++ b.specifier).toList ++ ':' :: b.name.toList := by
    simpa [key] using congrArg String.toList h
  have htake {file name : List Char} (hn : ':' ∉ name) :
      (file ++ ':' :: name).reverse.takeWhile (· != ':') = name.reverse := by
    rw [reverse_append,reverse_cons,append_assoc,takeWhile_append_of_pos]
    · simp
    · intro c hc
      exact bne_iff_ne.mpr fun heq => hn (heq ▸ mem_reverse.mp hc)
  have hname : a.name = b.name := by
    have hreverse := congrArg (fun text => text.reverse.takeWhile (· != ':')) hlists
    simp only [htake ha,htake hb] at hreverse
    exact String.toList_inj.mp (reverse_injective hreverse)
  have hspecifier : a.specifier = b.specifier := by
    rw [key,key,hname,String.append_left_inj,String.append_left_inj,String.append_right_inj] at h
    exact h
  exact Foreign.ext hspecifier hname

end Foreign

/-- The names of other files have placeholders by which they are found in the table, each with its own
name and file, if and only if the names have texts of their own. So they have if no name has a colon. -/
theorem scopeRules_references {filename : String} {options : ModuleOptions} {rules renamed : List Rule}
    {scope : Scope} (h : scopeRules filename options rules = .ok (renamed, scope))
    (hash : ∀ a ∈ foreignsIn options.dashedIdents rules, ∀ b ∈ foreignsIn options.dashedIdents rules,
      a.hash filename = b.hash filename → a.key filename = b.key filename) :
    let foreigns := foreignsIn options.dashedIdents rules
    renamed = Rule.rename.renameAll
        ⟨scope.exports.nameOf,placeholderOf filename,options.dashedIdents⟩ rules ∧
      (∀ f ∈ foreigns, scope.references.lookup (f.placeholder filename) =
        (foreigns.reverse.find? fun last => last.key filename = f.key filename).map Foreign.reference) ∧
      (Foreign.Kept filename foreigns scope.references ↔
        ∀ a ∈ foreigns, ∀ b ∈ foreigns, a.key filename = b.key filename → a = b) ∧
      ((∀ f ∈ foreigns, ':' ∉ f.name.toList) → Foreign.Kept filename foreigns scope.references) := by
  intro foreigns
  obtain ⟨s,rfl,hdashed,hrenamed,hd,hrun,-⟩ := Scoping.exists_of_scopeRules h
  have hlookup : ∀ f ∈ foreigns, scope.references.lookup (f.placeholder s.filename) =
      (foreigns.reverse.find? fun last => last.key s.filename = f.key s.filename).map
        Foreign.reference := by
    intro f hf
    rw [Scoping.references_foldlM hrun,hdashed,Scoping.lookup_foldl_refer,lookup_nil,Option.or_none]
    congr 1
    refine find?_congr fun last hlast => ?_
    have hiff := Foreign.placeholder_eq_iff (hash last (mem_reverse.mp hlast) f hf)
    simp only [hiff]
  have hkept : Foreign.Kept s.filename foreigns scope.references ↔
      ∀ a ∈ foreigns, ∀ b ∈ foreigns, a.key s.filename = b.key s.filename → a = b := by
    constructor
    · intro hkept a ha b hb heq
      by_contra hne
      exact hkept.ne a ha b hb hne ((Foreign.placeholder_eq_iff (hash a ha b hb)).mpr heq)
    · intro hinj
      refine ⟨fun a ha b hb hne heq => ?_,fun f hf => ?_⟩
      · exact hne (hinj a ha b hb ((Foreign.placeholder_eq_iff (hash a ha b hb)).mp heq))
      · rw [hlookup f hf]
        cases hfind : foreigns.reverse.find? fun last => last.key s.filename = f.key s.filename with
        | none => simpa using find?_eq_none.mp hfind f (mem_reverse.mpr hf)
        | some last =>
          have hkey : last.key s.filename = f.key s.filename := by simpa using find?_some hfind
          have hmem := mem_reverse.mp (mem_of_find?_eq_some hfind)
          rw [hinj last hmem f hf hkey]
          rfl
  refine ⟨?_,hlookup,hkept,fun hcolons => hkept.mpr fun a ha b hb heq => ?_⟩
  · rw [hrenamed,← hdashed]
    exact Rule.renameAll_congr rules (Scoping.nameOf_eq hd)
  · exact Foreign.eq_of_key_eq (hcolons a ha) (hcolons b hb) heq

def referring (first second : Foreign) : List Rule :=
  [.style ⟨[[.className "a"]],[⟨.custom "--y",[.reference first.name (some (.file first.specifier)) none,
    .reference second.name (some (.file second.specifier)) none],false,⟨0,0⟩⟩],[],⟨0,0⟩⟩ []]

theorem scopeRules_references_two : ∃ renamed scope,
      scopeRules "a.css" ⟨"x_[local]",true⟩ (referring ⟨"b.css","--x"⟩ ⟨"c.css","--x"⟩) =
        .ok (renamed, scope) ∧
      Foreign.Kept "a.css" [⟨"b.css","--x"⟩, ⟨"c.css","--x"⟩] scope.references := by
  have hok : (scopeRules "a.css" ⟨"x_[local]",true⟩ (referring ⟨"b.css","--x"⟩ ⟨"c.css","--x"⟩)).isOk := by
    unfold scopeRules
    rw [read_prefixed]
    decide +kernel
  cases h : scopeRules "a.css" ⟨"x_[local]",true⟩ (referring ⟨"b.css","--x"⟩ ⟨"c.css","--x"⟩) with
  | error e =>
    rw [h] at hok
    cases hok
  | ok result =>
    refine ⟨result.1,result.2,rfl,?_⟩
    have hkept := scopeRules_references h (by decide +kernel)
    exact hkept.2.2.2 (by decide +kernel)

/-- Two names of other files may have one text, so that one of them is lost: the name `--c` of the file
`a:--b`, and the name `--b:--c` of the file `a`. -/
theorem scopeRules_confuses_references : foreignsIn true (referring ⟨"a:--b","--c"⟩ ⟨"a","--b:--c"⟩) =
        [⟨"a:--b","--c"⟩, ⟨"a","--b:--c"⟩] ∧
      (scopeRules "a.css" ⟨"x_[local]",true⟩ (referring ⟨"a:--b","--c"⟩ ⟨"a","--b:--c"⟩)).toOption.map
          (fun result => result.2.references) =
        some [(placeholderOf "a.css" "a:--b" "--c", .file "--b:--c" "a")] := by
  refine ⟨rfl,?_⟩
  unfold scopeRules
  rw [read_prefixed]
  decide +kernel

end Modules
end Css
