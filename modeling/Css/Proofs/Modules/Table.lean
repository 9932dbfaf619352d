import Css.Proofs.Modules.Renaming

/-!
# The table of exports

The scoping of names goes through the places where names stand and keeps a table of exports.
-/
namespace Css
open List

def Occurrence.exported? : Occurrence → Option String
  | className name | definition name | use name => some name
  | composer name _ => some name
  | _ => none

namespace Modules

namespace Exports
variable (exports : Exports)

lemma lookup_cons (key name : String) (e : Export) :
    List.lookup name ((key,e) :: exports) = if name = key then some e else exports.lookup name := by
  by_cases h : name = key
  · simp [h]
  · have hne : (name == key) = false := by simpa using h
    simp [List.lookup_cons,hne,h]

lemma lookup_update (changed name : String) (f : Export → Export) : (exports.update changed f).lookup name =
      (exports.lookup name).map fun e => if name = changed then f e else e := by
  induction exports with
  | nil => rfl
  | cons e rest ih =>
    obtain ⟨key,e⟩ := e
    have hc : update ((key,e) :: rest) changed f = (key,if key = changed then f e else e) :: update rest changed f := by
      by_cases h : key = changed <;> simp [update,h]
    rw [hc,lookup_cons,lookup_cons,ih]
    by_cases hn : name = key
    · subst hn
      simp
    · simp [hn]

lemma lookup_concat (key name : String) (e : Export) : List.lookup name (exports ++ [(key,e)]) =
      (exports.lookup name).or (if name = key then some e else none) := by
  rw [lookup_append,lookup_cons]; rfl

lemma mem_keys_iff (name : String) : name ∈ exports.map Prod.fst ↔ exports.lookup name ≠ none := by
  induction exports with
  | nil => simp
  | cons e rest ih =>
    obtain ⟨key,e⟩ := e
    rw [lookup_cons,map_cons,mem_cons,ih]
    by_cases h : name = key <;> simp [h]

lemma lookup_of_mem {name : String} {e : Export} (hn : (exports.map Prod.fst).Nodup)
    (he : (name,e) ∈ exports) : exports.lookup name = some e := by
  induction exports with
  | nil => cases he
  | cons first rest ih =>
    obtain ⟨key,e'⟩ := first
    rw [map_cons,nodup_cons] at hn
    rw [lookup_cons]
    rcases mem_cons.mp he with heq | hr
    · cases heq
      simp
    · have hne : name ≠ key := by
        rintro rfl
        exact hn.1 (mem_map.mpr ⟨(name,e),hr,rfl⟩)
      rw [if_neg hne]
      exact ih hn.2 hr

lemma keys_update (changed : String) (f : Export → Export) :
    (exports.update changed f).map Prod.fst = exports.map Prod.fst := by
  rw [update,map_map]
  apply map_congr_left
  intro e _
  by_cases h : e.1 = changed <;> simp [h]

end Exports

lemma mem_keys_insert (references : References) (placeholder key : String) (r : Reference) :
    key ∈ (references.insert placeholder r).map Prod.fst ↔ key = placeholder ∨ key ∈ references.map Prod.fst := by
  rw [References.insert,map_append,mem_append,map_singleton,mem_singleton,or_comm]
  by_cases heq : key = placeholder
  · simp [heq]
  · have hf : key ∈ (references.filter fun e => e.1 != placeholder).map Prod.fst ↔ key ∈ references.map Prod.fst := by
      simp only [mem_map,mem_filter,bne_iff_ne]
      constructor
      · rintro ⟨e,⟨he,-⟩,rfl⟩
        exact ⟨e,he,rfl⟩
      · rintro ⟨e,he,rfl⟩
        exact ⟨e,⟨he,heq⟩,rfl⟩
    rw [hf]

namespace Scoping
variable (s : Scoping)

def exportName (sc : Scope) (name : String) : Except Error Scope :=
  if (sc.exports.lookup name).isSome then .ok sc
  else
    match sc.exports.writer? (s.naming.generate name) with
    | some first => .error ⟨.modules (.nameCollision first name (s.naming.generate name)),none⟩
    | none =>
      .ok { sc with
        exports := sc.exports ++ [(name,Export.mk (s.naming.generate name) [] false)] }

def change (name : String) (f : Export → Export) (sc : Scope) : Scope := { sc with exports := sc.exports.update name f }

def step (sc : Scope) : Occurrence → Except Error Scope
  | .className name => s.exportName { sc with classes := name :: sc.classes } name
  | .definition name => s.exportName sc name
  | .use name =>
    (s.exportName sc name).map (change name fun e => { e with isReferenced := true })
  | .foreign specifier name =>
    .ok { sc with
      references := sc.references.insert (s.placeholder specifier name) (.file name specifier) }
  | .composed groups => .ok { sc with targets := sc.targets ++ groups.flatMap targets }
  | .composer name groups =>
    (s.exportName sc name).map (change name fun e => { e with composes := e.composes ++ groups.flatMap s.references })
  | .misplaced first => .error (s.errorAt .composesNotAllowed first.location first.span)

def exportedNames (ps : List Occurrence) : List String := ps.filterMap Occurrence.exported?

def composesOf (ps : List Occurrence) (name : String) : List Reference := ps.flatMap fun
    | .composer other groups => if other = name then groups.flatMap s.references else []
    | _ => []

def isUsed (ps : List Occurrence) (name : String) : Bool := ps.any fun
    | .use other => other == name
    | _ => false

def exportOf (ps : List Occurrence) (name : String) : Export :=
  ⟨s.naming.generate name,s.composesOf ps name,isUsed ps name⟩

def targetsOf (ps : List Occurrence) : List Target := ps.flatMap fun
    | .composed groups => groups.flatMap targets
    | _ => []

def placeholders (ps : List Occurrence) : List String := ps.flatMap fun
    | .foreign specifier name => [s.placeholder specifier name]
    | _ => []

structure Describes (ps : List Occurrence) (sc : Scope) : Prop where
  keys_nodup : (sc.exports.map Prod.fst).Nodup
  lookup_eq : ∀ name, sc.exports.lookup name =
    if name ∈ exportedNames ps then some (s.exportOf ps name) else none
  injective : ∀ a ∈ exportedNames ps, ∀ b ∈ exportedNames ps,
    s.naming.generate a = s.naming.generate b → a = b
  mem_classes : ∀ name, name ∈ sc.classes ↔ .className name ∈ ps
  targets_eq : sc.targets = targetsOf ps
  mem_references : ∀ key, key ∈ sc.references.map Prod.fst ↔ key ∈ s.placeholders ps
  placed : ∀ first, .misplaced first ∉ ps

inductive Refuses (ps : List Occurrence) : Error → Prop where
  | collision {first second : String} (hne : first ≠ second)
      (hfirst : first ∈ exportedNames ps) (hsecond : second ∈ exportedNames ps)
      (heq : s.naming.generate first = s.naming.generate second) :
      Refuses ps ⟨.modules (.nameCollision first second (s.naming.generate second)),none⟩
  | misplaced {first : Composes} (h : .misplaced first ∈ ps) :
      Refuses ps (s.errorAt .composesNotAllowed first.location first.span)

section
variable (ps : List Occurrence) (o : Occurrence)

lemma mem_exportedNames_concat (name : String) : name ∈ exportedNames (ps ++ [o]) ↔
      name ∈ exportedNames ps ∨ o.exported? = some name := by
  simp [exportedNames,mem_filterMap]

lemma placeholders_append (more : List Occurrence) :
    s.placeholders (ps ++ more) = s.placeholders ps ++ s.placeholders more :=
  flatMap_append

variable {ps}

lemma composesOf_eq_nil {name : String} (h : name ∉ exportedNames ps) : s.composesOf ps name = [] := by
  rw [composesOf,flatMap_eq_nil_iff]
  intro o ho
  cases o with
  | composer other groups =>
    have hne : other ≠ name := by
      rintro rfl
      exact h (mem_filterMap.mpr ⟨_,ho,rfl⟩)
    simp [hne]
  | _ => rfl

lemma isUsed_eq_false {name : String} (h : name ∉ exportedNames ps) : isUsed ps name = false := by
  rw [isUsed,any_eq_false]
  intro o ho
  cases o with
  | use other =>
    have hne : other ≠ name := by
      rintro rfl
      exact h (mem_filterMap.mpr ⟨_,ho,rfl⟩)
    simp [hne]
  | _ => simp

end

variable {s} {ps : List Occurrence} {sc scope' : Scope} {name : String}

lemma exports_of_exportName (hd : s.Describes ps sc) {start : Scope}
    (hs : start.exports = sc.exports) (h : s.exportName start name = .ok scope') :
    scope' = { start with exports := scope'.exports } ∧ (scope'.exports.map Prod.fst).Nodup ∧
      (∀ other, scope'.exports.lookup other =
        if other ∈ exportedNames ps ∨ name = other then some (s.exportOf ps other)
        else none) ∧
      ∀ a, a ∈ exportedNames ps ∨ name = a → ∀ b, b ∈ exportedNames ps ∨ name = b →
        s.naming.generate a = s.naming.generate b → a = b := by
  unfold exportName at h
  rw [hs] at h
  by_cases hm : name ∈ exportedNames ps
  · have hor : ∀ other, other ∈ exportedNames ps ∨ name = other ↔ other ∈ exportedNames ps := by
      intro other
      constructor
      · rintro (h | rfl)
        · exact h
        · exact hm
      · exact .inl
    rw [hd.lookup_eq,if_pos hm] at h; cases h
    simp only [hor,hs]
    exact ⟨by rw [← hs],hd.keys_nodup,hd.lookup_eq,hd.injective⟩
  · have hn : sc.exports.lookup name = none := by rw [hd.lookup_eq,if_neg hm]
    rw [hn] at h
    simp only [Option.isSome_none,Bool.false_eq_true,if_false] at h
    split at h
    · cases h
    · rename_i hw
      cases h
      have hf : ∀ other ∈ exportedNames ps, s.naming.generate other ≠ s.naming.generate name := by
        intro other ho heq
        have hfn : sc.exports.find? (fun e => e.2.name == s.naming.generate name) = none := by
          simpa [Exports.writer?] using hw
        have hlk : sc.exports.lookup other = some (s.exportOf ps other) := by
          rw [hd.lookup_eq,if_pos ho]
        obtain ⟨pre,post,hsp,_⟩ := lookup_eq_some_iff.mp hlk
        have hin : (other,s.exportOf ps other) ∈ sc.exports := by simp [hsp]
        exact absurd (List.find?_eq_none.mp hfn _ hin) (by simpa [exportOf] using heq)
      refine ⟨rfl,?_,?_,?_⟩
      · rw [map_append,nodup_append]
        refine ⟨hd.keys_nodup,by simp,?_⟩
        intro key hk last hl heq
        rw [map_singleton,mem_singleton] at hl
        subst hl heq
        exact (Exports.mem_keys_iff _ _).mp hk hn
      · intro other
        rw [Exports.lookup_concat,hd.lookup_eq]
        by_cases ho : name = other
        · subst ho
          simp [hm,exportOf,composesOf_eq_nil s hm,isUsed_eq_false hm]
        · have hne : other ≠ name := fun heq => ho heq.symm
          simp [ho,hne]
      · rintro a (ha | rfl) b (hb | rfl) heq
        · exact hd.injective a ha b hb heq
        · exact absurd heq (hf a ha)
        · exact absurd heq.symm (hf b hb)
        · rfl

variable {e : Error} {o : Occurrence}

lemma refuses_of_exportName (hd : s.Describes ps sc) (start : Scope)
    (ho : o.exported? = some name) (hs : start.exports = sc.exports)
    (h : s.exportName start name = .error e) : s.Refuses (ps ++ [o]) e := by
  unfold exportName at h
  rw [hs] at h
  split at h
  · cases h
  · rename_i hn
    split at h
    · rename_i first hw
      cases h
      obtain ⟨⟨key,export'⟩,hf,rfl⟩ := Option.map_eq_some_iff.mp hw
      have hl := Exports.lookup_of_mem sc.exports hd.keys_nodup (mem_of_find?_eq_some hf)
      have hg : export'.name = s.naming.generate name := by simpa using List.find?_some hf
      have hk : key ∈ exportedNames ps ∧ export' = s.exportOf ps key := by
        rw [hd.lookup_eq] at hl
        split at hl
        · rename_i hm
          exact ⟨hm,(Option.some.inj hl).symm⟩
        · cases hl
      have hne : key ≠ name := by
        rintro rfl
        exact hn (by rw [hl]; rfl)
      refine .collision hne ?_ ?_ ?_
      · exact (mem_exportedNames_concat _ _ _).mpr (.inl hk.1)
      · exact (mem_exportedNames_concat _ _ _).mpr (.inr ho)
      · rw [← hg,hk.2]; rfl
    · cases h

lemma describes_of_exportName (hd : s.Describes ps sc) (start : Scope)
    (ho : o.exported? = some name) (hs : start.exports = sc.exports)
    (hr : start.references = sc.references) (h : s.exportName start name = .ok scope')
    (f : Export → Export)
    (hf : ∀ other, s.exportOf (ps ++ [o]) other = if other = name then f (s.exportOf ps other) else s.exportOf ps other)
    (hc : ∀ other, other ∈ start.classes ↔ .className other ∈ ps ++ [o])
    (ht : start.targets = targetsOf (ps ++ [o])) (hp : ∀ first, o ≠ .misplaced first) :
    s.Describes (ps ++ [o]) (change name f scope') := by
  obtain ⟨hon,hn,hl,hi⟩ := exports_of_exportName hd hs h
  have hm : ∀ other, other ∈ exportedNames (ps ++ [o]) ↔ other ∈ exportedNames ps ∨ name = other := by
    intro other
    rw [mem_exportedNames_concat,ho,Option.some.injEq]
  refine ⟨?_,?_,?_,?_,?_,?_,?_⟩
  · rw [change,Exports.keys_update]
    exact hn
  · intro other
    rw [change,Exports.lookup_update,hl]
    simp only [hm,hf]
    by_cases hin : other ∈ exportedNames ps ∨ name = other
    · rw [if_pos hin,if_pos hin,Option.map_some]
    · rw [if_neg hin,if_neg hin,Option.map_none]
  · intro a ha b hb heq
    exact hi a ((hm a).mp ha) b ((hm b).mp hb) heq
  · intro other
    rw [change,hon]
    exact hc other
  · rw [change,hon]
    exact ht
  · intro key
    have hnn : s.placeholders [o] = [] := by
      cases o with
      | foreign specifier name => cases ho
      | _ => rfl
    rw [change,hon,hr,hd.mem_references,placeholders_append,hnn,append_nil]
  · intro first hfr
    rcases mem_append.mp hfr with hol | hnw
    · exact hd.placed first hol
    · exact hp first (mem_singleton.mp hnw).symm

lemma describes_of_not_exported (hd : s.Describes ps sc) (ho : o.exported? = none)
    (he : scope'.exports = sc.exports) (hc : scope'.classes = sc.classes)
    (ht : scope'.targets = targetsOf (ps ++ [o]))
    (hr : ∀ key, key ∈ scope'.references.map Prod.fst ↔ key ∈ s.placeholders (ps ++ [o]))
    (hp : ∀ first, o ≠ .misplaced first) : s.Describes (ps ++ [o]) scope' := by
  have hn : exportedNames (ps ++ [o]) = exportedNames ps := by simp [exportedNames,ho]
  have het : ∀ other, s.exportOf (ps ++ [o]) other = s.exportOf ps other := by
    intro other
    cases o <;> simp_all [exportOf,composesOf,isUsed,Occurrence.exported?]
  refine ⟨?_,?_,?_,?_,ht,hr,?_⟩
  · rw [he]
    exact hd.keys_nodup
  · intro other
    rw [he,hd.lookup_eq,hn,het]
  · rw [hn]
    exact hd.injective
  · intro other
    rw [hc,hd.mem_classes]
    cases o <;> simp_all [Occurrence.exported?]
  · intro first hf
    rcases mem_append.mp hf with hol | hnw
    · exact hd.placed first hol
    · exact hp first (mem_singleton.mp hnw).symm

lemma change_id (name : String) (sc : Scope) : change name id sc = sc := by
  have hid : (fun e : String × Export => if e.1 == name then (e.1,id e.2) else e) = id := by
    funext e
    split <;> rfl
  rw [change,Exports.update,hid,map_id]

lemma ok_of_map_ok {α β : Type} {x : Except Error α} {f : α → β} {b : β}
    (h : x.map f = .ok b) : ∃ a, x = .ok a ∧ f a = b := by
  cases x with
  | error e => cases h
  | ok a => exact ⟨a,rfl,Except.ok.inj h⟩

lemma error_of_map_error {α β : Type} {x : Except Error α} {f : α → β} (h : x.map f = .error e) : x = .error e := by
  cases x with
  | error e => exact congrArg Except.error (Except.error.inj h)
  | ok a => cases h

lemma describes_step (hd : s.Describes ps sc) (h : s.step sc o = .ok scope') : s.Describes (ps ++ [o]) scope' := by
  cases o with
  | className name =>
    rw [← change_id name scope']
    refine describes_of_exportName hd { sc with classes := name :: sc.classes } rfl rfl rfl h id ?_ ?_ ?_ ?_
    · simp [exportOf,composesOf,isUsed]
    · simp [hd.mem_classes,or_comm]
    · simp [hd.targets_eq,targetsOf]
    · simp
  | definition name =>
    rw [← change_id name scope']
    refine describes_of_exportName hd sc rfl rfl rfl h id ?_ ?_ ?_ ?_
    · simp [exportOf,composesOf,isUsed]
    · simp [hd.mem_classes]
    · simp [hd.targets_eq,targetsOf]
    · simp
  | foreign specifier name =>
    cases h
    refine describes_of_not_exported hd rfl rfl rfl ?_ ?_ (by simp)
    · simp [hd.targets_eq,targetsOf]
    · intro key
      rw [mem_keys_insert,hd.mem_references,placeholders_append,mem_append,or_comm]
      simp [placeholders]
  | composed groups =>
    cases h
    refine describes_of_not_exported hd rfl rfl rfl ?_ ?_ (by simp)
    · simp [hd.targets_eq,targetsOf]
    · simp [hd.mem_references,placeholders]
  | use name | composer name =>
    obtain ⟨between,he,rfl⟩ := ok_of_map_ok h
    refine describes_of_exportName hd sc rfl rfl rfl he _ ?_ ?_ ?_ ?_
    · intro other
      by_cases heq : name = other
      · simp [exportOf,composesOf,isUsed,heq]
      · simp [exportOf,composesOf,isUsed,heq,Ne.symm heq]
    · simp [hd.mem_classes]
    · simp [hd.targets_eq,targetsOf]
    · simp
  | misplaced first => cases h

lemma refuses_step (hd : s.Describes ps sc) (h : s.step sc o = .error e) : s.Refuses (ps ++ [o]) e := by
  cases o with
  | className name =>
    exact refuses_of_exportName hd { sc with classes := name :: sc.classes } rfl rfl h
  | definition name => exact refuses_of_exportName hd sc rfl rfl h
  | use name | composer name => exact refuses_of_exportName hd sc rfl rfl (error_of_map_error h)
  | foreign | composed => cases h
  | misplaced first =>
    cases h
    exact .misplaced (by simp)

lemma Refuses.append (h : s.Refuses ps e) (more : List Occurrence) : s.Refuses (ps ++ more) e := by
  have hm : ∀ name ∈ exportedNames ps, name ∈ exportedNames (ps ++ more) := by
    intro name hn
    rw [exportedNames,filterMap_append]
    exact mem_append_left _ hn
  cases h with
  | collision hne hf hs heq => exact .collision hne (hm _ hf) (hm _ hs) heq
  | misplaced hf => exact .misplaced (mem_append_left _ hf)

lemma describes_foldlM (hd : s.Describes ps sc) (more : List Occurrence) :
    match more.foldlM s.step sc with
    | .ok scope' => s.Describes (ps ++ more) scope'
    | .error e => s.Refuses (ps ++ more) e := by
  induction more generalizing ps sc with
  | nil =>
    rw [append_nil]
    exact hd
  | cons o more ih =>
    have hsp : ps ++ o :: more = ps ++ [o] ++ more := by simp
    rw [foldlM_cons,hsp]
    cases hs : s.step sc o with
    | error e => exact (refuses_step hd hs).append more
    | ok between => exact ih (describes_step hd hs)

lemma describes_nil : s.Describes [] {} := by
  refine ⟨by simp,by simp [exportedNames],by simp [exportedNames],by simp,rfl,by simp [placeholders],by simp⟩

lemma describes_of_foldlM (h : ps.foldlM s.step {} = .ok sc) : s.Describes ps sc := by
  have hr := describes_foldlM (s := s) describes_nil ps
  rw [h] at hr
  exact hr

lemma refuses_of_foldlM (h : ps.foldlM s.step {} = .error e) : s.Refuses ps e := by
  have hr := describes_foldlM (s := s) describes_nil ps
  rw [h] at hr
  exact hr

end Scoping
end Modules
end Css
