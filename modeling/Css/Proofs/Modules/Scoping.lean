import Css.Proofs.Modules.Table

/-!
# The scoping of names as a renaming

The traversal of rules takes notice of the places of names, one after the other, and puts other names in
their place.
-/
namespace Css.Modules
open List Part.traverse Part.rename

open Rule.rename Rule.occurrences Component Rule
namespace Scoping
variable {s : Scoping} {α β : Type}

variable (s) in
def Sound (sc : Scope) : Prop := ∀ e ∈ sc.exports, e.2.name = s.naming.generate e.1

variable {scope' : Scope}

lemma sound_exportName (sc : Scope) {name : String} (hs : s.Sound sc)
    (h : s.exportName sc name = .ok scope') : s.Sound scope' := by
  unfold exportName at h
  split at h
  · cases h
    exact hs
  · split at h
    · cases h
    · cases h
      intro e he
      rcases mem_append.mp he with ho | hn
      · exact hs e ho
      · rw [mem_singleton.mp hn]

lemma sound_change {sc : Scope} (name : String) {f : Export → Export}
    (hf : ∀ e, (f e).name = e.name) (hs : s.Sound sc) : s.Sound (change name f sc) := by
  intro e he
  obtain ⟨old,ho,rfl⟩ := mem_map.mp he
  split
  · exact (hf old.2).trans (hs old ho)
  · exact hs old ho

lemma sound_step {sc : Scope} {o : Occurrence} (hs : s.Sound sc) (h : s.step sc o = .ok scope') : s.Sound scope' := by
  cases o with
  | className name =>
    exact sound_exportName { sc with classes := name :: sc.classes } hs h
  | definition name => exact sound_exportName sc hs h
  | use name =>
    obtain ⟨between,he,rfl⟩ := ok_of_map_ok h
    exact sound_change name (fun _ => rfl) (sound_exportName sc hs he)
  | foreign specifier name =>
    cases h
    exact hs
  | composed groups =>
    cases h
    exact hs
  | composer name groups =>
    obtain ⟨between,he,rfl⟩ := ok_of_map_ok h
    exact sound_change name (fun _ => rfl) (sound_exportName sc hs he)
  | misplaced first => cases h

lemma sound_foldlM {sc : Scope} {places : List Occurrence} (hs : s.Sound sc)
    (h : places.foldlM s.step sc = .ok scope') : s.Sound scope' := by
  induction places generalizing sc with
  | nil =>
    cases h
    exact hs
  | cons o places ih =>
    rw [foldlM_cons] at h
    cases hst : s.step sc o with
    | error e =>
      rw [hst] at h; cases h
    | ok between =>
      rw [hst] at h
      exact ih (sound_step hs hst) h

variable (s) in
def Notes (x : ScopeM α) (a : α) (places : List Occurrence) : Prop :=
  ∀ sc, s.Sound sc → x.run sc = (places.foldlM s.step sc).map fun scope' => (a,scope')

lemma notes_pure (a : α) : s.Notes (pure a) a [] := fun _ _ => rfl

lemma notes_bind {x : ScopeM α} {f : α → ScopeM β} {a : α} {b : β} {p q : List Occurrence}
    (hx : s.Notes x a p) (hf : s.Notes (f a) b q) : s.Notes (x >>= f) b (p ++ q) := by
  intro sc hs
  rw [StateT.run_bind,hx sc hs,foldlM_append]
  cases hr : p.foldlM s.step sc with
  | error e => rfl
  | ok between => exact hf between (sound_foldlM hs hr)

lemma notes_map {x : ScopeM α} {a : α} {places : List Occurrence} (f : α → β)
    (hx : s.Notes x a places) : s.Notes (x >>= fun a => pure (f a)) (f a) places := by
  rw [← append_nil places]
  exact notes_bind hx (notes_pure _)

lemma notes_mapM {f : α → ScopeM β} {g : α → β} {places : α → List Occurrence}
    (h : ∀ a, s.Notes (f a) (g a) (places a)) (xs : List α) :
    s.Notes (xs.mapM f) (xs.map g) (xs.flatMap places) := by
  induction xs with
  | nil => exact notes_pure []
  | cons x xs ih =>
    rw [mapM_cons,flatMap_cons]
    exact notes_bind (h x) (notes_map _ ih)

lemma notes_scopeName (name : String) : s.Notes (s.scopeName name) (s.naming.generate name) [.definition name] := by
  intro sc hs
  change StateT.run (s.scopeName name) sc = ((s.exportName sc name).bind pure).map _
  unfold scopeName exportName
  simp only [StateT.run_bind,StateT.run_get,pure_bind]
  cases hl : sc.exports.lookup name with
  | some e =>
    obtain ⟨pre,post,hsp,_⟩ := lookup_eq_some_iff.mp hl
    have hn : e.name = s.naming.generate name := hs (name,e) (by simp [hsp])
    rw [← hn]; rfl
  | none =>
    cases hw : sc.exports.writer? (s.naming.generate name) with
    | some first => rfl
    | none => rfl

lemma notes_className (name : String) :
    s.Notes (s.selectorVisitor.className name) (s.naming.generate name) [.className name] := by
  intro sc hs
  exact notes_scopeName name { sc with classes := name :: sc.classes } hs

lemma notes_updateExport {name : String} {f : Export → Export} {o : Occurrence}
    (ho : ∀ sc, s.step sc o = (s.exportName sc name).map (change name f))
    (k : String → β) :
    s.Notes (do let generated ← s.scopeName name; updateExport name f; return k generated)
      (k (s.naming.generate name)) [o] := by
  intro sc hs
  rw [StateT.run_bind,notes_scopeName name sc hs]
  change _ = ((s.step sc o).bind pure).map _
  rw [ho]
  change (((s.exportName sc name).bind pure).map _).bind _ = _
  cases s.exportName sc name with
  | error e => rfl
  | ok between => rfl

lemma notes_scopeUse (name : String) : s.Notes (s.scopeUse name) (s.naming.generate name) [.use name] :=
  notes_updateExport (fun _ => rfl) id

lemma notes_parts : (∀ ps, s.Notes (traverseList s.selectorVisitor ps)
      (renameList s.naming.generate ps) (Part.occurrences.occurrencesIn ps)) ∧
    ∀ ss, s.Notes (traverseLists s.selectorVisitor ss)
      (renameLists s.naming.generate ss) (Part.occurrences.occurrencesInAll ss) := by
  refine Part.induct (notes_pure []) ?_ (notes_pure []) fun _ _ hs ih => notes_bind hs (notes_map _ ih)
  intro p ps hi ih
  refine notes_bind ?_ (notes_map _ ih)
  cases p with
  | className name => exact notes_map _ (notes_className name)
  | idName name => exact notes_map _ (notes_scopeName name)
  | pseudoClassOf => exact notes_map _ hi
  | _ => exact notes_pure _

lemma notes_composers (groups : List Composes) (classes : List String) : s.Notes
      (forIn classes PUnit.unit fun name _ => do
        let _ ← s.scopeName name
        updateExport name fun e => { e with composes := e.composes ++ groups.flatMap s.references }
        return ForInStep.yield PUnit.unit)
      () (classes.map fun name => .composer name groups) := by
  induction classes with
  | nil => exact notes_pure ()
  | cons name classes ih =>
    rw [forIn_cons]
    exact notes_bind (p := [.composer name groups])
      (notes_updateExport (fun _ => rfl) fun _ => ForInStep.yield PUnit.unit) ih

lemma notes_compose (b : StyleBlock) : s.Notes (s.compose b) () b.composition := by
  unfold compose StyleBlock.composition
  cases b.composes with
  | nil => exact notes_pure ()
  | cons first rest =>
    cases b.selectors.mapM Selector.singleClass? with
    | none => exact fun _ _ => rfl
    | some classes =>
      intro sc hs
      exact notes_map (fun _ => ()) (notes_composers (first :: rest) classes)
        { sc with targets := sc.targets ++ (first :: rest).flatMap targets } hs

variable (s) in
def newNames : Renaming := ⟨s.naming.generate,s.placeholder,s.dashed⟩

lemma notes_reference (name : String) (src : Option NameSource) :
    s.Notes (s.variableVisitor.reference name src) (renameReference s.newNames name src,none)
      (referenceOccurrence name src) := by
  match src with
  | none => exact notes_map _ (notes_scopeUse name)
  | some .global => exact notes_pure _
  | some (.file specifier) => exact fun _ _ => rfl

lemma notes_components (xs : List Component) : s.Notes (traverse.traverseAll s.variableVisitor xs)
      (rename.renameAll s.newNames xs) (occurrences.occurrencesIn xs) := by
  induction xs using Value.induct with
  | nil => exact notes_pure []
  | cons c xs hc ih =>
    refine notes_bind ?_ (notes_map _ ih)
    cases c with
    | reference name src fb =>
      refine notes_bind (notes_reference name src) (notes_map _ ?_)
      cases fb with
      | none => exact notes_pure none
      | some ys => exact notes_map _ hc
    | function | block => exact notes_map _ hc
    | _ => exact notes_pure _

lemma notes_scopeAnimations (keywords : List String) (value : Value) : s.Notes (s.scopeAnimations keywords value)
      (value.map (renameAnimation s.naming.generate keywords))
      (value.flatMap (animationUse keywords)) := by
  apply notes_mapM
  intro c
  cases c with
  | ident name =>
    simp only [renameAnimation,animationUse]
    split
    · exact notes_pure _
    · exact notes_map _ (notes_scopeUse name)
  | _ => exact notes_pure _

lemma notes_scopeProperty (d : Declaration) :
    s.Notes (s.scopeProperty d.property) (d.rename s.newNames).property (d.definitions s.dashed) := by
  obtain ⟨filename,naming,dashed⟩ := s
  unfold Declaration.rename Declaration.definitions
  cases d.property with
  | standard name vendor => exact notes_pure _
  | custom name =>
    cases dashed with
    | true => exact notes_map _ (notes_scopeName name)
    | false => exact notes_pure _

lemma notes_scopeVariables (d : Declaration) (p : Property) (value : Value) : s.Notes (if s.dashed then do
          let value ← value.traverse s.variableVisitor
          return { d with property := p, value }
        else do
          let value ← pure value
          return { d with property := p, value })
      { d with
        property := p
        value := if s.dashed then rename.renameAll s.newNames value else value }
      (if s.dashed then occurrences.occurrencesIn value else []) := by
  obtain ⟨filename,naming,dashed⟩ := s
  cases dashed with
  | true => exact notes_map _ (notes_components value)
  | false => exact notes_pure _

lemma notes_scopeDeclaration (d : Declaration) :
    s.Notes (s.scopeDeclaration d) (d.rename s.newNames) (d.occurrences s.dashed) := by
  have hv := notes_scopeVariables (s := s) d (d.rename s.newNames).property
    (Declaration.renameAnimations s.naming.generate d.property d.value)
  rw [Declaration.occurrencesIn_renameAnimations] at hv
  rw [Declaration.occurrences,append_assoc]
  refine notes_bind (notes_scopeProperty d) ?_
  unfold Declaration.animationUses
  unfold Declaration.rename Declaration.renameAnimations at hv ⊢
  cases hk : animationKeywords? d.property with
  | some keywords =>
    rw [hk] at hv
    exact notes_bind (notes_scopeAnimations keywords d.value) hv
  | none =>
    rw [hk] at hv
    exact notes_bind (notes_pure d.value) hv

lemma notes_scopeDeclarations (ds : List Declaration) :
    s.Notes (s.scopeDeclarations ds) (ds.map (Declaration.rename s.newNames))
      (ds.flatMap (Declaration.occurrences s.dashed)) :=
  notes_mapM notes_scopeDeclaration ds

lemma notes_block (b : StyleBlock) : s.Notes (s.ruleVisitor.block b) (b.rename s.newNames) (b.occurrences s.dashed) := by
  rw [StyleBlock.occurrences,append_assoc]
  exact notes_bind (notes_compose b)
    (notes_bind (notes_parts.2 b.selectors) (notes_map _ (notes_scopeDeclarations b.declarations)))

lemma notes_frames (frames : List Keyframe) : s.Notes (frames.mapM fun frame => do
        return { frame with declarations := ← s.scopeDeclarations frame.declarations })
      (frames.map fun frame =>
        { frame with declarations := frame.declarations.map (Declaration.rename s.newNames) })
      (frames.flatMap fun frame => frame.declarations.flatMap (Declaration.occurrences s.dashed)) :=
  notes_mapM (fun frame => notes_map _ (notes_scopeDeclarations frame.declarations)) frames

lemma notes_statement (stmt : Statement) (loc : Location) :
    s.Notes (s.ruleVisitor.statement stmt loc) (stmt.rename s.newNames) (stmt.occurrences s.dashed) := by
  obtain ⟨filename,naming,dashed⟩ := s
  cases stmt with
  | keyframes name quoted vendor frames =>
    cases quoted with
    | true => exact notes_bind (notes_pure _) (notes_map _ (notes_frames frames))
    | false =>
      exact notes_bind (notes_map _ (notes_scopeName name)) (notes_map _ (notes_frames frames))
  | property name ds =>
    have ha := notes_scopeDeclarations (s := ⟨filename,naming,dashed⟩) ds
    cases dashed with
    | true => exact notes_bind (notes_map _ (notes_scopeName name)) (notes_map _ ha)
    | false => exact notes_bind (notes_pure _) (notes_map _ ha)
  | fontFace ds =>
    exact notes_bind (notes_pure _) (notes_map _ (notes_scopeDeclarations ds))
  | page sels ds =>
    exact notes_bind (notes_pure _) (notes_map _ (notes_scopeDeclarations ds))
  | importSheet | namespaceOf | layers | customMedia | unknown =>
    exact notes_bind (notes_pure _) (notes_pure _)

lemma notes_rules (rs : List Rule) : s.Notes (Rule.traverseList s.ruleVisitor rs) (renameAll s.newNames rs)
      (occurrencesIn s.dashed rs) := by
  induction rs using Rule.induct with
  | nil => exact notes_pure []
  | cons rule rs hr ih =>
    refine notes_bind ?_ (notes_map _ ih)
    cases rule with
    | style b | nest b => exact notes_bind (notes_block b) (notes_map _ hr)
    | group => exact notes_bind (notes_pure _) (notes_map _ hr)
    | statement stmt loc => exact notes_map _ (notes_statement stmt loc)

lemma run_eq (rs : List Rule) : s.run rs = do
      let sc ← (occurrencesIn s.dashed rs).foldlM s.step {}
      s.checkTargets sc
      return (renameAll s.newNames rs,sc) := by
  have hem : s.Sound {} := by
    intro e he
    cases he
  unfold run
  rw [notes_rules rs {} hem]
  cases (occurrencesIn s.dashed rs).foldlM s.step {} with
  | error e => rfl
  | ok sc => rfl

end Scoping

def Exports.nameOf (exports : Exports) (name : String) : String := match exports.lookup name with
  | some e => e.name
  | none => name

def placeholderOf (filename specifier name : String) : String :=
  "--" ++ String.ofList ((Blake3.hexDigest (filename ++ ":" ++ specifier ++ ":" ++ name)).take 8)

def namesIn (dashed : Bool) (rs : List Rule) : List String := (occurrencesIn dashed rs).filterMap Occurrence.name?

lemma mem_namesIn_iff (dashed : Bool) (rs : List Rule) (name : String) : name ∈ namesIn dashed rs ↔
      name ∈ Scoping.exportedNames (occurrencesIn dashed rs) := by
  unfold namesIn Scoping.exportedNames
  simp only [mem_filterMap]
  constructor
  · rintro ⟨o,ho,hn⟩
    refine ⟨o,ho,?_⟩
    cases o with
    | className | definition | use => exact hn
    | foreign | composed | composer | misplaced => cases hn
  · rintro ⟨o,ho,hn⟩
    cases o with
    | className | definition | use => exact ⟨_,ho,hn⟩
    | composer other groups =>
      exact ⟨.className other,attached_all rs other groups ho,hn⟩
    | foreign | composed | misplaced => cases hn

/-- The names of rules are replaced by those of the table, and the table has these names. -/
structure Scoped (filename : String) (options : ModuleOptions) (rs renamed : List Rule)
    (sc : Scope) : Prop where
  renamed_eq : renamed = renameAll
    ⟨sc.exports.nameOf,placeholderOf filename,options.dashedIdents⟩ rs
  keys_nodup : (sc.exports.map Prod.fst).Nodup
  mem_keys : ∀ name, name ∈ sc.exports.map Prod.fst ↔ name ∈ namesIn options.dashedIdents rs
  name_eq : ∀ e ∈ sc.exports, localName filename e.1 options.pattern = .ok e.2.name
  injective : ∀ a ∈ sc.exports, ∀ b ∈ sc.exports, a.2.name = b.2.name → a.1 = b.1
  mem_references : ∀ key, key ∈ sc.references.map Prod.fst ↔ ∃ specifier name,
    .foreign specifier name ∈ occurrencesIn options.dashedIdents rs ∧
      key = placeholderOf filename specifier name

/-- Why the names of rules cannot be scoped: the pattern cannot be read, two names of the rules stand
for one, a rule composes classes where it may not, or a composed name is no class of the rules. -/
inductive Refused (filename : String) (options : ModuleOptions) (rs : List Rule) : Error → Prop where
  | pattern {problem : PatternProblem} (h : Pattern.read options.pattern = .error problem) :
      Refused filename options rs (patternError problem)
  | collision {first second generated : String} (hne : first ≠ second)
      (hfirst : first ∈ namesIn options.dashedIdents rs)
      (hsecond : second ∈ namesIn options.dashedIdents rs)
      (hfirstName : localName filename first options.pattern = .ok generated)
      (hsecondName : localName filename second options.pattern = .ok generated) :
      Refused filename options rs ⟨.modules (.nameCollision first second generated),none⟩
  | misplaced {first : Composes}
      (h : .misplaced first ∈ occurrencesIn options.dashedIdents rs) :
      Refused filename options rs
        ⟨.modules .composesNotAllowed,some ⟨filename,first.location,first.span⟩⟩
  | unknown {target : Target}
      (h : target ∈ Scoping.targetsOf (occurrencesIn options.dashedIdents rs))
      (hclass : .className target.name ∉ occurrencesIn options.dashedIdents rs) :
      Refused filename options rs
        ⟨.modules (.unknownComposesTarget target.name),
          some ⟨filename,target.location,target.span⟩⟩

namespace Scoping
variable {s : Scoping} {rs : List Rule} {sc : Scope}

lemma mem_exports (hd : s.Describes (occurrencesIn s.dashed rs) sc) {e : String × Export} (he : e ∈ sc.exports) :
    e.1 ∈ exportedNames (occurrencesIn s.dashed rs) ∧ e.2.name = s.naming.generate e.1 := by
  have hl := Exports.lookup_of_mem sc.exports hd.keys_nodup he
  rw [hd.lookup_eq] at hl
  split at hl
  · rename_i hm
    exact ⟨hm,by rw [← Option.some.inj hl]; rfl⟩
  · cases hl

lemma nameOf_eq (hd : s.Describes (occurrencesIn s.dashed rs) sc) :
    AgreeAt s.naming.generate sc.exports.nameOf (occurrencesIn s.dashed rs) := by
  intro o ho name hn
  have hm : name ∈ exportedNames (occurrencesIn s.dashed rs) := (mem_namesIn_iff _ _ _).mp (mem_filterMap.mpr ⟨o,ho,hn⟩)
  rw [Exports.nameOf,hd.lookup_eq,if_pos hm]; rfl

variable {pattern : Pattern} {filename : String}

lemma scoped_of_describes (opts : ModuleOptions) (hp : Pattern.read opts.pattern = .ok pattern)
    (hs : s = ⟨filename,Naming.ofFile filename pattern,opts.dashedIdents⟩)
    (hd : s.Describes (occurrencesIn s.dashed rs) sc) :
    Scoped filename opts rs (renameAll s.newNames rs) sc := by
  subst hs
  refine ⟨?_,hd.keys_nodup,?_,?_,?_,?_⟩
  · exact renameAll_congr rs (nameOf_eq hd)
  · intro name
    rw [Exports.mem_keys_iff,hd.lookup_eq,mem_namesIn_iff]
    split <;> simp_all
  · intro e he
    rw [localName,hp,(mem_exports hd he).2]
  · intro a ha b hb heq
    obtain ⟨hm,hn⟩ := mem_exports hd ha
    obtain ⟨hmm,hnm⟩ := mem_exports hd hb
    exact hd.injective a.1 hm b.1 hmm (by rw [← hn,← hnm,heq])
  · intro key
    rw [hd.mem_references,placeholders,mem_flatMap]
    constructor
    · rintro ⟨o,ho,hk⟩
      cases o with
      | foreign specifier name => exact ⟨specifier,name,ho,mem_singleton.mp hk⟩
      | _ => cases hk
    · rintro ⟨specifier,name,ho,rfl⟩
      exact ⟨.foreign specifier name,ho,mem_singleton.mpr rfl⟩

lemma refused_of_refuses (opts : ModuleOptions) (hp : Pattern.read opts.pattern = .ok pattern)
    (hs : s = ⟨filename,Naming.ofFile filename pattern,opts.dashedIdents⟩) {e : Error}
    (hr : s.Refuses (occurrencesIn s.dashed rs) e) :
    Refused filename opts rs e := by
  subst hs
  cases hr with
  | collision hne hf hsc heq =>
    refine .collision hne ((mem_namesIn_iff _ _ _).mpr hf) ((mem_namesIn_iff _ _ _).mpr hsc)
      ?_ ?_
    · rw [localName,hp]
      exact congrArg Except.ok heq
    · rw [localName,hp]
  | misplaced h => exact .misplaced h

lemma refused_of_checkTargets (opts : ModuleOptions)
    (hs : s = ⟨filename,Naming.ofFile filename pattern,opts.dashedIdents⟩)
    (hd : s.Describes (occurrencesIn s.dashed rs) sc) {e : Error}
    (h : s.checkTargets sc = .error e) : Refused filename opts rs e := by
  subst hs
  unfold checkTargets at h
  split at h
  · rename_i target hf
    cases h
    have hm := mem_of_find?_eq_some hf
    have hc := find?_some hf
    rw [hd.targets_eq] at hm
    refine .unknown hm ?_
    simpa [hd.mem_classes] using hc
  · cases h

lemma exists_of_scopeRules {opts : ModuleOptions} {renamed : List Rule}
    (h : scopeRules filename opts rs = .ok (renamed,sc)) :
    ∃ s : Scoping, s.filename = filename ∧ s.dashed = opts.dashedIdents ∧
      renamed = renameAll s.newNames rs ∧ s.Describes (occurrencesIn s.dashed rs) sc ∧
      (occurrencesIn s.dashed rs).foldlM s.step {} = .ok sc ∧ s.checkTargets sc = .ok () := by
  unfold scopeRules at h
  split at h
  · cases h
  · rw [run_eq] at h
    obtain ⟨scope',hf,h⟩ := ok_of_bind_ok h
    obtain ⟨_,hc,h⟩ := ok_of_bind_ok h
    cases h
    exact ⟨_,rfl,rfl,rfl,describes_of_foldlM hf,hf,hc⟩

end Scoping

/-- Scoping is an injective renaming. If it succeeds, the rules are those that were given with each
name of the file replaced by the name that is exported for it, and with nothing else changed. It fails
because of two names for one only if the rules have two such names. -/
theorem scopeRules_renames (filename : String) (options : ModuleOptions) (rules : List Rule) :
    match scopeRules filename options rules with
    | .ok (renamed, scope) => Scoped filename options rules renamed scope
    | .error e => Refused filename options rules e := by
  unfold scopeRules
  cases hpattern : Pattern.read options.pattern with
  | error problem => exact .pattern hpattern
  | ok pattern =>
    let s : Scoping := ⟨filename, Naming.ofFile filename pattern, options.dashedIdents⟩
    change match s.run rules with
      | .ok (renamed, scope) => Scoped filename options rules renamed scope
      | .error e => Refused filename options rules e
    rw [Scoping.run_eq]
    cases hrun : (Rule.occurrences.occurrencesIn s.dashed rules).foldlM s.step {} with
    | error e =>
      exact Scoping.refused_of_refuses options hpattern rfl (Scoping.refuses_of_foldlM hrun)
    | ok scope =>
      have hd := Scoping.describes_of_foldlM hrun
      cases hcheck : s.checkTargets scope with
      | error e =>
        simp only [bind, Except.bind, hcheck]
        exact Scoping.refused_of_checkTargets options rfl hd hcheck
      | ok _ =>
        simp only [bind, Except.bind, hcheck]
        exact Scoping.scoped_of_describes options hpattern rfl hd

lemma read_prefixed : Pattern.read "x_[local]" = .ok [.literal ['x','_'],.name] := by
  have hn : placeholder? ['l','o','c','a','l'] = some .name := by decide
  simp [Pattern.read,segments,hn,Functor.map,Except.map]

/-- A condition keeps the name of a custom property, though a declaration with the same value would
not: `@supports (color: var(--x))` neither gets the new name nor exports the old one. -/
theorem scopeRules_leaves_condition : scopeRules "a.css" ⟨"x_[local]", true⟩
      [.group (.supports [.block .paren [.ident "color", .colon, .reference "--x" none none]])
        [.style ⟨[[.className "a"]], [⟨.custom "--y", [.reference "--z" none none], false, ⟨0, 0⟩⟩],
          [], ⟨0, 0⟩⟩ []] ⟨0, 0⟩] =
    .ok
      ([.group (.supports [.block .paren [.ident "color", .colon, .reference "--x" none none]])
        [.style ⟨[[.className "x_a"]],
          [⟨.custom "--x_y", [.reference "--x_z" none none], false, ⟨0, 0⟩⟩], [], ⟨0, 0⟩⟩ []] ⟨0, 0⟩],
        { exports := [("a", ⟨"x_a", [], false⟩), ("--y", ⟨"--x_y", [], false⟩),
            ("--z", ⟨"--x_z", [], true⟩)]
          classes := ["a"] }) := by
  unfold scopeRules
  rw [read_prefixed]
  rfl

end Css.Modules
