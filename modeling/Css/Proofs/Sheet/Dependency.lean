import Css.Proofs.Rule.Placement
import Mathlib.Logic.Basic

/-!
# Addresses and their placeholders

The addresses in rules are those of imports and those in the values of declarations. An address that
is replaced by a placeholder can be written back.
-/
namespace Css
open List Bool Nat Statement

structure Address where
  isImport : Bool
  url : String
  location : Location

def Address.isFile (a : Address) : Bool := a.isImport || Dependency.isFile a.url

def Component.addresses : Component → List Address
  | url address location => [⟨false,address,location⟩]
  | reference _ _ (some xs) => addressesIn xs
  | function _ xs => addressesIn xs
  | block _ xs => addressesIn xs
  | _ => []
where
  addressesIn : List Component → List Address
    | [] => []
    | x :: xs => x.addresses ++ addressesIn xs

def Declaration.addresses (declarations : List Declaration) : List Address :=
  declarations.flatMap fun d => Component.addresses.addressesIn d.value

def Statement.addresses (location : Location) : Statement → List Address
  | importSheet url _ _ _ => [⟨true,url,location⟩]
  | keyframes _ _ _ frames => frames.flatMap fun frame => Declaration.addresses frame.declarations
  | s => Declaration.addresses s.declarations

def Rule.addresses : Rule → List Address
  | style b rules => Declaration.addresses b.declarations ++ addressesIn rules
  | nest b rules => Declaration.addresses b.declarations ++ addressesIn rules
  | group _ rules _ => addressesIn rules
  | statement s location => s.addresses location
where
  addressesIn : List Rule → List Address
    | [] => []
    | r :: rs => r.addresses ++ addressesIn rs

namespace Dependency
open Rule.addresses

def next (url : String) : StateM (List String) String := fun
  | [] => (url,[])
  | first :: rest => (first,rest)

def valueWriter : Component.Visitor (StateM (List String)) where
  leaf
    | .url url location => return .url (← next url) location
    | c => return c
  reference name source := return (name,source)

def writeIn (declarations : List Declaration) : StateM (List String) (List Declaration) :=
  Declaration.traverseValues (fun value => value.traverse valueWriter) declarations

def ruleWriter : Rule.Visitor (StateM (List String)) where
  block b := return { b with declarations := ← writeIn b.declarations }
  group g _ := return g
  statement s _ :=
    match s with
    | .importSheet url layer supports media =>
      return .importSheet (← next url) layer supports media
    | s => s.traverseDeclarations writeIn

/-- The rules with other addresses in their places, in order. -/
def write (urls : List String) (rules : List Rule) : List Rule := ((Rule.traverseList ruleWriter rules).run urls).1

/-- The addresses in places where those of files are the ones that were found. -/
def fill : List Address → List Dependency → List String
  | [], _ => []
  | a :: places, found =>
    if a.isFile then ((found.head?.map url).getD a.url) :: fill places found.tail
    else a.url :: fill places found

def restore (found : List Dependency) (rules : List Rule) : List Rule := write (fill (addressesIn rules) found) rules

variable (filename : String)

def foundAt (places : List Address) : List Dependency :=
  (places.filter Address.isFile).map fun a => make filename a.isImport a.url a.location

def replace (a : Address) : Address :=
  if a.isFile then { a with url := placeholderOf filename a.url } else a

structure Walk (α : Type) where
  addresses : α → List Address
  extract : α → StateM (List Dependency) α
  write : α → StateM (List String) α

variable {α β γ : Type}

/-- The walk replaces the addresses in `a`, which gives `b`, and writes either's into the other. -/
structure Walk.Turns (w : Walk α) (a b : α) : Prop where
  extract : ∀ found, (w.extract a).run found = (b,found ++ foundAt filename (w.addresses a))
  addresses : w.addresses b = (w.addresses a).map (replace filename)
  write : ∀ rest, (w.write a).run ((w.addresses b).map Address.url ++ rest) = (b,rest)
  writeBack : ∀ rest, (w.write b).run ((w.addresses a).map Address.url ++ rest) = (a,rest)
  same : foundAt filename (w.addresses a) = [] → b = a

structure Walk.Passes (w : Walk α) (a : α) : Prop where
  addresses : w.addresses a = [] := by rfl
  extract : w.extract a = pure a := by rfl
  write : w.write a = pure a := by rfl

structure Walk.Joins (w : Walk γ) (f : α → β → γ) (u : Walk α) (v : Walk β) : Prop where
  addresses : ∀ a b, w.addresses (f a b) = u.addresses a ++ v.addresses b := by intros; rfl
  extract : ∀ a b, w.extract (f a b) = (do return f (← u.extract a) (← v.extract b)) := by
    intros; rfl
  write : ∀ a b, w.write (f a b) = (do return f (← u.write a) (← v.write b)) := by intros; rfl

def Walk.IsReversible (w : Walk α) (a : α) : Prop := ∃ b, w.Turns filename a b

variable {filename} {u : Walk α} {v : Walk β} {w : Walk γ}

lemma isReversible_of_passes {c : γ} (h : w.Passes c := by exact {}) : w.IsReversible filename c := by
  refine ⟨c,fun found => ?_,?_,fun rest => ?_,fun rest => ?_,fun _ => rfl⟩
  · rw [h.extract,h.addresses,foundAt,filter_nil,map_nil,append_nil]; rfl
  · rw [h.addresses,map_nil]
  all_goals
    rw [h.write,h.addresses]; rfl

lemma isReversible_join (f : α → β → γ) {a : α} {b : β} (ha : u.IsReversible filename a)
    (hb : v.IsReversible filename b) (hw : w.Joins f u v := by exact {}) :
    w.IsReversible filename (f a b) := by
  have hrun {σ : Type} {x : StateM σ α} {y : StateM σ β} {s s' s'' : σ} {p : α} {q : β}
      (hx : x.run s = (p,s')) (hy : y.run s' = (q,s'')) :
      (x >>= fun a => y >>= fun b => pure (f a b)).run s = (f p q,s'') := by
    rw [StateT.run_bind,hx]
    change (y >>= fun b => pure (f p b)).run s' = _
    rw [StateT.run_bind,hy]; rfl
  have hfound : foundAt filename (w.addresses (f a b)) =
      foundAt filename (u.addresses a) ++ foundAt filename (v.addresses b) := by
    rw [hw.addresses,foundAt,filter_append,map_append]; rfl
  obtain ⟨a',ha⟩ := ha
  obtain ⟨b',hb⟩ := hb
  refine ⟨f a' b',fun found => ?_,?_,fun rest => ?_,fun rest => ?_,fun hn => ?_⟩
  · rw [hw.extract,hrun (ha.extract found) (hb.extract _),hfound,append_assoc]
  · rw [hw.addresses,hw.addresses,ha.addresses,hb.addresses,map_append]
  · rw [hw.write,hw.addresses,map_append,append_assoc,hrun (ha.write _) (hb.write rest)]
  · rw [hw.write,hw.addresses,map_append,append_assoc,hrun (ha.writeBack _) (hb.writeBack rest)]
  · rw [hfound,append_eq_nil_iff] at hn
    rw [ha.same hn.1,hb.same hn.2]

lemma isReversible_map (f : β → γ) {b : β} (hb : v.IsReversible filename b)
    (hw : w.Joins (fun _ : Unit => f) ⟨fun _ => [],pure,pure⟩ v := by exact {}) :
    w.IsReversible filename (f b) :=
  isReversible_join _ (isReversible_of_passes (c := ())) hb hw

variable (filename) in
structure Walk.Holds (w : Walk γ) (f : String → γ) (isImport : Bool) (location : Location) : Prop where
  addresses : ∀ url, w.addresses (f url) = [⟨isImport,url,location⟩] := by intros; rfl
  extract : ∀ url, w.extract (f url) = (if Address.isFile ⟨isImport,url,location⟩ then
    return f (← note filename isImport url location) else return f url) := by intros; rfl
  write : ∀ url, w.write (f url) = (do return f (← next url)) := by intros; rfl

lemma isReversible_address (f : String → γ) (isImport : Bool) (location : Location) (url : String)
    (hw : w.Holds filename f isImport location := by exact {}) : w.IsReversible filename (f url) := by
  by_cases h : Address.isFile ⟨isImport,url,location⟩
  · refine ⟨f (placeholderOf filename url),fun found => ?_,?_,fun rest => ?_,fun rest => ?_,?_⟩
    · rw [hw.extract,if_pos h,hw.addresses,foundAt,filter_cons_of_pos h]; rfl
    · rw [hw.addresses,hw.addresses,map_singleton,replace,if_pos h]
    · rw [hw.write,hw.addresses]; rfl
    · rw [hw.write,hw.addresses]; rfl
    · rw [hw.addresses,foundAt,filter_cons_of_pos h]
      exact fun h => absurd h (cons_ne_nil _ _)
  · refine ⟨f url,fun found => ?_,?_,fun rest => ?_,fun rest => ?_,fun _ => rfl⟩
    · rw [hw.extract,if_neg h,hw.addresses,foundAt,filter_cons_of_neg h]
      exact congrArg (f url,·) (append_nil found).symm
    · rw [hw.addresses,map_singleton,replace,if_neg h]
    all_goals
      rw [hw.write,hw.addresses]; rfl

variable (filename)

lemma isReversible_components (xs : List Component) : Walk.IsReversible filename ⟨Component.addresses.addressesIn,
      Component.traverse.traverseAll (valueVisitor filename),
      Component.traverse.traverseAll valueWriter⟩ xs := by
  induction xs using Value.induct with
  | nil => exact isReversible_of_passes
  | cons c xs hc ih =>
    refine isReversible_join (u := ⟨Component.addresses,Component.traverse (valueVisitor filename),
      Component.traverse valueWriter⟩) cons ?_ ih
    cases c with
    | reference name source fallback =>
      cases fallback with
      | none => exact isReversible_of_passes
      | some ys =>
        exact isReversible_map (fun ys => Component.reference name source (some ys)) hc
    | function name => exact isReversible_map (Component.function name) hc
    | block bracket => exact isReversible_map (Component.block bracket) hc
    | url url location =>
      exact isReversible_address (Component.url · location) false location url
    | _ => exact isReversible_of_passes

lemma isReversible_mapM {u : Walk α} (h : ∀ a, u.IsReversible filename a) (as : List α) :
    Walk.IsReversible filename ⟨fun as => as.flatMap u.addresses,fun as => as.mapM u.extract,
      fun as => as.mapM u.write⟩ as := by
  induction as with
  | nil => exact isReversible_of_passes
  | cons a as ih =>
    exact isReversible_join cons (h a) ih ⟨fun _ _ => flatMap_cons,fun _ _ => mapM_cons,fun _ _ => mapM_cons⟩

def declarations : Walk (List Declaration) := ⟨Declaration.addresses,replaceIn filename,writeIn⟩

lemma isReversible_declarations (ds : List Declaration) : (declarations filename).IsReversible filename ds := by
  refine isReversible_mapM filename (u := ⟨fun d => Component.addresses.addressesIn d.value,
    fun d => do return { d with value := ← d.value.traverse (valueVisitor filename) },
    fun d => do return { d with value := ← d.value.traverse valueWriter }⟩) (fun d => ?_) ds
  exact isReversible_map (fun value => ({ d with value } : Declaration)) (isReversible_components filename d.value)

lemma isReversible_statement (s : Statement) (loc : Location) : Walk.IsReversible filename ⟨addresses loc,
      ((ruleVisitor filename).statement · loc),(ruleWriter.statement · loc)⟩ s := by
  have hd := isReversible_declarations filename
  cases s with
  | keyframes name quoted vendor frames =>
    refine isReversible_map (keyframes name quoted vendor)
      (isReversible_mapM filename (u := ⟨fun frame => Declaration.addresses frame.declarations,
        fun frame => do return { frame with declarations := ← replaceIn filename frame.declarations },
        fun frame => do return { frame with declarations := ← writeIn frame.declarations }⟩)
        (fun frame => ?_) frames)
    exact isReversible_map (fun declarations => ({ frame with declarations } : Keyframe)) (hd frame.declarations)
  | property name ds => exact isReversible_map (property name) (hd ds)
  | fontFace ds => exact isReversible_map fontFace (hd ds)
  | page selectors ds => exact isReversible_map (page selectors) (hd ds)
  | importSheet url layer supports media =>
    exact isReversible_address (importSheet · layer supports media) true loc url
  | namespaceOf | layers | customMedia | unknown => exact isReversible_of_passes

lemma isReversible_block (b : StyleBlock) : Walk.IsReversible filename
    ⟨fun b => Declaration.addresses b.declarations,(ruleVisitor filename).block,ruleWriter.block⟩ b :=
  isReversible_map (fun declarations => ({ b with declarations } : StyleBlock))
    (isReversible_declarations filename b.declarations)

lemma isReversible_rules (rules : List Rule) :
    Walk.IsReversible filename ⟨addressesIn,Rule.traverseList (ruleVisitor filename),
      Rule.traverseList ruleWriter⟩ rules := by
  induction rules using Rule.induct with
  | nil => exact isReversible_of_passes
  | cons r rs hr ih =>
    refine isReversible_join (u := ⟨Rule.addresses,Rule.traverse (ruleVisitor filename),
      Rule.traverse ruleWriter⟩) cons ?_ ih
    cases r with
    | style b => exact isReversible_join Rule.style (isReversible_block filename b) hr
    | nest b => exact isReversible_join Rule.nest (isReversible_block filename b) hr
    | group g _ location => exact isReversible_map (Rule.group g · location) hr
    | statement s location =>
      exact isReversible_map (Rule.statement · location) (isReversible_statement filename s location)

lemma extract_spec (rs : List Rule) : ∃ replaced,
    extract filename rs = (replaced,foundAt filename (addressesIn rs)) ∧ addressesIn replaced =
        (addressesIn rs).map (replace filename) ∧
      write ((addressesIn replaced).map Address.url) rs = replaced ∧
      write ((addressesIn rs).map Address.url) replaced = rs ∧
      (foundAt filename (addressesIn rs) = [] → replaced = rs) := by
  obtain ⟨replaced,ht⟩ := isReversible_rules filename rs
  have hw := ht.write []
  have hb := ht.writeBack []
  rw [append_nil] at hw hb
  exact ⟨replaced,ht.extract [],ht.addresses,congrArg Prod.fst hw,congrArg Prod.fst hb,ht.same⟩

lemma extract_eq_self {rs : List Rule} (h : (extract filename rs).2 = []) : extract filename rs = (rs,[]) := by
  obtain ⟨replaced,he,-,-,-,hs⟩ := extract_spec filename rs
  rw [he] at h ⊢
  exact Prod.ext (hs h) h

lemma hexDigest_spec (text : String) :
    ∃ c cs, Blake3.hexDigest text = c :: cs ∧ ∀ d ∈ c :: cs, ∃ n < 16, d = digitChar n := by
  have hall : ∀ d ∈ Blake3.hexDigest text, ∃ n < 16, d = digitChar n := by
    intro d hd
    obtain ⟨b,-,hb⟩ := mem_flatMap.mp hd
    have hlt := b.toNat_lt
    rcases mem_cons.mp hb with rfl | hb
    · exact ⟨b.toNat / 16,by omega,rfl⟩
    · exact ⟨b.toNat % 16,by omega,mem_singleton.mp hb⟩
  obtain ⟨c,cs,hc⟩ : ∃ c cs, Blake3.hexDigest text = c :: cs := ⟨_,_,rfl⟩
  exact ⟨c,cs,hc,hc ▸ hall⟩

lemma isFile_placeholderOf (url : String) : isFile (placeholderOf filename url) := by
  obtain ⟨c,cs,hd,hall⟩ := hexDigest_spec (filename ++ "\x00" ++ url)
  have hsharp : ∀ n < 16, digitChar n ≠ '#' := by decide
  have htee : ∀ n < 16, (digitChar n).toLower ≠ 't' := by decide
  rw [placeholderOf,hd,take_succ_cons,isFile,Text.lower,Text.startsWith,Text.startsWith,
    String.toList_ofList,String.toList_ofList,and_eq_true,and_eq_true,
    not_eq_true',not_eq_true',not_eq_true']
  refine ⟨⟨by simp,?_⟩,eq_false_iff.mpr fun h => ?_⟩
  · obtain ⟨n,hn,rfl⟩ := hall c mem_cons_self
    exact and_eq_false_iff.mpr (.inl (beq_eq_false_iff_ne.mpr (hsharp n hn).symm))
  · have ht : 't' ∈ "data:".toList := by decide
    replace ht := ( isPrefixOf_iff_prefix.mp h).subset ht
    rw [String.toList_ofList] at ht
    obtain ⟨d,hd,ht⟩ := mem_map.mp ht
    obtain ⟨n,hn,rfl⟩ := hall d ((take_sublist 8 (c :: cs)).subset hd)
    exact htee n hn ht

lemma fill_replace (places : List Address) :
    fill (places.map (replace filename)) (foundAt filename places) = places.map Address.url := by
  induction places with
  | nil => rfl
  | cons a places ih =>
    rw [map_cons,map_cons,fill,← ih]
    by_cases h : a.isFile
    · have hr : (replace filename a).isFile := by
        rw [replace,if_pos h,Address.isFile,isFile_placeholderOf,Bool.or_true]
      rw [if_pos hr,foundAt,filter_cons_of_pos h]; rfl
    · rw [replace,if_neg h,if_neg h,foundAt,filter_cons_of_neg h]; rfl

/-- The dependencies are the addresses of files, in order. They alone are replaced, each by the
placeholder for it, and the rules that were given are the ones with the addresses of the dependencies
written back, one after the other, in the places of files. -/
theorem extract_restores (rules : List Rule) : let replaced := (extract filename rules).1
    let found := (extract filename rules).2
    let places := addressesIn rules
    found = (places.filter Address.isFile).map (fun a => make filename a.isImport a.url a.location) ∧
      replaced = write (places.map fun a =>
        if a.isFile then placeholderOf filename a.url else a.url) rules ∧
      restore found replaced = rules := by
  obtain ⟨replaced,he,ha,hw,hb,-⟩ := extract_spec filename rules
  have hn : (addressesIn replaced).map Address.url = (addressesIn rules).map fun a =>
        if a.isFile then placeholderOf filename a.url else a.url := by
    rw [ha,map_map]
    refine map_congr_left fun a _ => ?_
    rw [Function.comp,replace]
    split <;> rfl
  rw [he]
  refine ⟨rfl,?_,?_⟩
  · rw [← hn,hw]
  · rw [restore,ha,fill_replace,hb]

end Dependency
end Css
