import Css.Proofs.Cascade.Compact
import Css.Proofs.Rule.Traversal
import Css.Sheet.Basic

/-!
# The order of cascade layers

Layers are ordered by where they are named first, in a statement or by the block of a layer.
-/
namespace Css
open List Bool

/-- The name of a layer with those of the layers around it, from the outside in. A layer without a
name is `none`. -/
abbrev LayerName := List (Option String)

namespace LayerName

def ofName (name : String) : LayerName := (name.toList.splitOn '.').map fun part => some (String.ofList part)

end LayerName

def Group.layerInside (outer : LayerName) : Group → LayerName
  | layer (some name) => outer ++ LayerName.ofName name
  | layer none => outer ++ [none]
  | media _ | supports _ => outer

def Group.namedLayers (outer : LayerName) : Group → List LayerName
  | layer (some name) => [outer ++ LayerName.ofName name]
  | layer none | media _ | supports _ => []

def Statement.namedLayers (outer : LayerName) : Statement → List LayerName
  | layers names => names.map fun name => outer ++ LayerName.ofName name
  | _ => []

namespace Rule

def layers (outer : LayerName) : Rule → List LayerName
  | style _ rules => layersOf outer rules
  | nest _ rules => layersOf outer rules
  | group g rules _ => g.namedLayers outer ++ layersOf (g.layerInside outer) rules
  | statement s _ => s.namedLayers outer
where
  layersOf (outer : LayerName) : List Rule → List LayerName
    | [] => []
    | r :: rs => r.layers outer ++ layersOf outer rs

open layers

def layerOrder (rules : List Rule) : List LayerName := (layersOf [] rules).eraseDups

/-- The layers that are named in a rule, in order, and whether minified rules still name them
there. -/
def mentions (outer : LayerName) : Rule → List (LayerName × Bool)
  | style _ rules => mentionsOf outer rules
  | nest _ rules => mentionsOf outer rules
  | group g rules location =>
    (g.namedLayers outer).map (·,!(group g rules location).isVoid) ++ mentionsOf (g.layerInside outer) rules
  | statement s _ => (s.namedLayers outer).map (·,true)
where
  mentionsOf (outer : LayerName) : List Rule → List (LayerName × Bool)
    | [] => []
    | r :: rs => r.mentions outer ++ mentionsOf outer rs

open mentions

def keptLayers (mentioned : List (LayerName × Bool)) : List LayerName := (mentioned.filter Prod.snd).map Prod.fst

lemma map_fst_mentionsOf (rules : List Rule) (outer : LayerName) :
    (mentionsOf outer rules).map Prod.fst = layersOf outer rules := by
  induction rules using induct generalizing outer with
  | nil => rfl
  | cons r rs hr ih =>
    rw [mentionsOf,map_append,ih outer]
    refine congrArg (· ++ _) ?_
    cases r with
    | style | nest => exact hr outer
    | group =>
      rw [mentions,map_append,map_map,hr,layers]
      exact congrArg (· ++ _) (map_id _)
    | statement =>
      rw [mentions,map_map,layers]
      exact map_id _

lemma keptLayers_append (ms ns : List (LayerName × Bool)) : keptLayers (ms ++ ns) = keptLayers ms ++ keptLayers ns := by
  rw [keptLayers,filter_append,map_append]; rfl

lemma keptLayers_map (ns : List LayerName) (kept : Bool) : keptLayers (ns.map (·,kept)) = if kept then ns else [] := by
  induction ns with
  | nil => cases kept <;> rfl
  | cons name ns ih =>
    have hc : keptLayers ((name :: ns).map (·,kept)) = keptLayers [(name,kept)] ++ keptLayers (ns.map (·,kept)) :=
      keptLayers_append [(name,kept)] _
    rw [hc,ih]
    cases kept <;> rfl

lemma layersOf_append (outer : LayerName) (rs ss : List Rule) :
    layersOf outer (rs ++ ss) = layersOf outer rs ++ layersOf outer ss := by
  induction rs with
  | nil => rfl
  | cons r rs ih =>
    rw [cons_append,layersOf,layersOf,ih,append_assoc]

lemma layersOf_mergeAll (outer : LayerName) (candidates : List Candidate) :
    layersOf outer (mergeAll candidates) = layersOf outer (candidates.map Candidate.rule) := by
  apply mergeAll_induction (motive := fun rs => layersOf outer rs = layersOf outer (candidates.map Candidate.rule))
  · intro pre a b m post _ h
    rw [← h]
    simp [layersOf_append,layersOf,layers]
  · rfl

lemma keptLayers_of_allVoid {rules : List Rule} {outer : LayerName}
    (h : isVoid.allVoid rules) : keptLayers (mentionsOf outer rules) = [] := by
  induction rules using induct generalizing outer with
  | nil => rfl
  | cons r rs hr ih =>
    rw [isVoid.allVoid,and_eq_true] at h
    rw [mentionsOf,keptLayers_append,ih h.2,append_nil]
    replace h := h.1
    cases r with
    | style | nest =>
      rw [isVoid,and_eq_true] at h
      exact hr h.2
    | group =>
      rw [mentions,keptLayers_append,hr h,h,keptLayers_map]; rfl
    | statement => cases h

lemma layersOf_candidates (rules : List Rule) (outer : LayerName) :
    layersOf outer ((compactList.candidates rules).map Candidate.rule) = keptLayers (mentionsOf outer rules) := by
  induction rules using induct generalizing outer with
  | nil => rfl
  | cons r rs hr ih =>
    cases hv : r.isVoid with
    | true =>
      have hn : keptLayers (mentionsOf outer [r]) = [] := keptLayers_of_allVoid (by rw [isVoid.allVoid,hv]; rfl)
      rw [mentionsOf,mentionsOf,append_nil] at hn
      rw [mentionsOf,keptLayers_append,compactList.candidates,hv,if_pos rfl,ih,hn]; rfl
    | false =>
      rw [mentionsOf,keptLayers_append,compactList.candidates,hv,if_neg Bool.false_ne_true,map_cons,layersOf,ih]
      refine congrArg (· ++ _) ?_
      cases r with
      | style | nest => rw [compactList.candidate,layers,layersOf_mergeAll,hr,mentions]
      | group =>
        rw [compactList.candidate,layers,layersOf_mergeAll,hr,mentions,keptLayers_append,hv,keptLayers_map]
        rfl
      | statement =>
        rw [compactList.candidate,layers,mentions,keptLayers_map]; rfl

lemma layersOf_compactList (outer : LayerName) (rs : List Rule) :
    layersOf outer (compactList rs) = keptLayers (mentionsOf outer rs) := by
  rw [compactList,layersOf_mergeAll,layersOf_candidates]

def keepsFirst (mentioned : List (LayerName × Bool)) : Bool :=
  mentioned.all fun m => (mentioned.find? (·.1 == m.1)).any Prod.snd

lemma keptLayers_filter (mentioned : List (LayerName × Bool)) (name : LayerName) :
    keptLayers (mentioned.filter fun m => !m.1 == name) = (keptLayers mentioned).filter fun other => !other == name := by
  unfold keptLayers
  rw [filter_map,filter_filter,filter_filter]
  congr 2
  funext m
  exact and_comm _ _

lemma keepsFirst_filter {m : LayerName × Bool} {mentioned : List (LayerName × Bool)} (h : keepsFirst (m :: mentioned)) :
    keepsFirst (mentioned.filter fun n => !n.1 == m.1) := by
  unfold keepsFirst at h ⊢
  rw [all_eq_true] at h ⊢
  intro n hn
  obtain ⟨hm,hne⟩ := mem_filter.mp hn
  have hf := h n (mem_cons_of_mem m hm)
  have ho : ¬(m.1 == n.1) := by
    intro heq
    rw [beq_iff_eq.mp heq,beq_self_eq_true] at hne; cases hne
  have hs : (fun a : LayerName × Bool => decide ((!a.1 == m.1) ∧ (a.1 == n.1))) = fun a => a.1 == n.1 := by
    funext a
    cases ha : a.1 == n.1 with
    | false => simp
    | true => simpa [beq_iff_eq.mp ha] using hne
  rw [find?_cons_of_neg (p := fun a : LayerName × Bool => a.1 == n.1) ho] at hf
  rw [find?_filter,hs]
  exact hf

lemma eraseDups_keptLayers (mentioned : List (LayerName × Bool)) (h : keepsFirst mentioned) :
    (keptLayers mentioned).eraseDups = (mentioned.map Prod.fst).eraseDups := by
  -- To go on after the first mention of a layer is to go on without all of its mentions.
  induction hl : mentioned.length using Nat.strongRecOn generalizing mentioned with
  | ind n ih =>
    cases mentioned with
    | nil => rfl
    | cons m rest =>
      have hk : m.2 := by
        have hf := all_eq_true.mp h m mem_cons_self
        rw [find?_cons_of_pos (p := fun a : LayerName × Bool => a.1 == m.1) (beq_self_eq_true m.1)] at hf
        exact hf
      have hc : keptLayers (m :: rest) = m.1 :: keptLayers rest := by simp [keptLayers,hk]
      have hs : (rest.filter fun a => !a.1 == m.1).length < n := by
        have hle := length_filter_le (fun a : LayerName × Bool => !a.1 == m.1) rest
        rw [length_cons] at hl; omega
      have hr := ih _ hs _ (keepsFirst_filter h) rfl
      rw [hc,map_cons,eraseDups_cons,eraseDups_cons,← keptLayers_filter,hr,filter_map]; rfl

end Rule

def StyleSheet.layerOrders? (source : String) : Option (List LayerName × List LayerName) := do
  let sheet ← (parse source {}).toOption
  let minified ← (parse (sheet.print { minify := true }).code {}).toOption
  return (Rule.layerOrder sheet.rules,Rule.layerOrder minified.rules)

end Css
