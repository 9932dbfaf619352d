import Css.Proofs.Cascade.Basic
import Css.Proofs.Declaration.Box
import Mathlib.Tactic.Lemma

/-!
# Fewer rules, same cascade

Dropping overridden declarations, rules that say nothing, and merging neighbours keep the winning value
of every property, in every engine and for every element.
-/
namespace Css.Rule
variable {motive : List Rule → Prop}

lemma pushMerged_induction (merge : ∀ pre a b m post, StyleBlock.merge? a b = some m →
      motive (pre ++ style a [] :: style b [] :: post) → motive (pre ++ style m [] :: post))
    (c : Candidate) (stk : List Candidate) (post : List Rule)
    (h : motive (stk.reverse.map Candidate.rule ++ c.rule :: post)) :
    motive ((pushMerged c stk).reverse.map Candidate.rule ++ post) := by
  have hp : ∀ (c : Candidate) (stk : List Candidate), (c :: stk).reverse.map Candidate.rule ++ post =
        stk.reverse.map Candidate.rule ++ c.rule :: post := by
    intro c stk
    simp
  fun_induction pushMerged c stk with
  | case1 c => exact h
  | case2 pre a b m hm ih =>
    apply ih
    apply merge _ a b m post hm
    simpa using h
  | case3 =>
    rw [hp]
    exact h
  | case4 =>
    rw [hp]
    exact h

lemma mergeAll_induction (candidates : List Candidate) (merge : ∀ pre a b m post, StyleBlock.merge? a b = some m →
      motive (pre ++ style a [] :: style b [] :: post) → motive (pre ++ style m [] :: post))
    (start : motive (candidates.map Candidate.rule)) : motive (mergeAll candidates) := by
  -- The fold is over the rules that are left, with those that are done on the stack.
  have step : ∀ cs stk : List Candidate, motive (stk.reverse.map Candidate.rule ++ cs.map Candidate.rule) →
        motive ((cs.foldl (fun done c => pushMerged c done) stk).reverse.map Candidate.rule) := by
    intro cs
    induction cs with
    | nil =>
      intro stk h
      simpa using h
    | cons c cs ih =>
      intro stk h
      exact ih _ (pushMerged_induction merge c stk _ h)
  exact step candidates [] start

end Css.Rule

namespace Css
open List

/-- Properties that minifying rewrites: the boxes and the sides of those that are collapsed. -/
def Property.isBox (p : Property) : Bool := Declaration.boxes.contains p || ["margin","padding"].any fun box =>
      Declaration.sides.any fun side => p == .standard (box ++ "-" ++ side) none

namespace Cascade
open Declaration

lemma filter_map_shortenBox (keep : Declaration → Bool) (hkp : ∀ d, keep d → d.property ∉ boxes) (ds : List Declaration) :
    (ds.map shortenBox).filter keep = ds.filter keep := by
  induction ds with
  | nil => rfl
  | cons d ds ih =>
    rw [map_cons]
    by_cases hb : d.property ∈ boxes
    · have hd : ¬keep d := fun hk => hkp d hk hb
      have hs : ¬keep (shortenBox d) := by
        intro hk
        apply hkp _ hk
        rw [property_shortenBox]
        exact hb
      rw [filter_cons_of_neg hd,filter_cons_of_neg hs,ih]
    · rw [shortenBox_of_not_mem hb,filter_cons,filter_cons,ih]

section
variable {σ : Type} (engine : Engine) (p : Property) (weight : σ)

lemma bidsOf_append (as bs : List Declaration) : bidsOf engine p weight (as ++ bs) =
      bidsOf engine p weight as ++ bidsOf engine p weight bs := by
  simp [bidsOf,filter_append]

lemma bidsOf_cons (d : Declaration) (ds : List Declaration) : bidsOf engine p weight (d :: ds) =
      (if d.property == p && engine.declaration d then [⟨d.important,weight,d.value⟩] else []) ++
        bidsOf engine p weight ds := by
  simp only [bidsOf,filter_cons]
  split <;> rfl

variable [LinearOrder σ]

lemma exists_bid_of_overrides {d : Declaration} {ds : List Declaration}
    (hp : d.property = p) (h : ds.any (·.overrides d)) :
    ∃ b ∈ bidsOf engine p weight ds, (⟨d.important,weight,d.value⟩ : Bid σ).rank ≤ b.rank := by
  obtain ⟨later,hm,hover⟩ := any_eq_true.mp h
  simp only [overrides,Bool.and_eq_true,Bool.or_eq_true,beq_iff_eq] at hover
  obtain ⟨⟨hpr,hi⟩,ha⟩ := hover
  have hac : engine.declaration later := by
    rcases ha with hc | hu
    · exact engine.accepts_custom later hc
    · exact engine.accepts_universal later hu
  refine ⟨⟨later.important,weight,later.value⟩,?_,?_⟩
  · apply mem_map_of_mem
    rw [mem_filter]
    exact ⟨hm,by simp [hpr,hp,hac]⟩
  · have hle : d.important ≤ later.important := by
      cases hd : d.important with
      | false => exact Bool.false_le _
      | true => simp_all
    exact Prod.Lex.toLex_mono ⟨hle,le_refl _⟩

lemma winner_bidsOf_dropOverridden (ds : List Declaration) :
    winner Bid.rank (bidsOf engine p weight (dropOverridden ds)) = winner Bid.rank (bidsOf engine p weight ds) := by
  induction ds with
  | nil => rfl
  | cons d ds ih =>
    rw [dropOverridden]
    split
    · rename_i ha
      rw [ih,bidsOf_cons]
      split
      · rename_i hd
        simp only [Bool.and_eq_true,beq_iff_eq] at hd
        obtain ⟨b,hb,hle⟩ := exists_bid_of_overrides engine p weight hd.1 ha
        exact (winner_cons_of_le Bid.rank hb hle).symm
      · rfl
    · rw [bidsOf_cons,bidsOf_cons,winner_append,winner_append,ih]

variable {p}

lemma not_mem_boxes (h : p.isBox = false) : p ∉ boxes := by
  simp only [Property.isBox,Bool.or_eq_false_iff] at h
  simpa using h.1

lemma not_side_of_not_isBox (h : p.isBox = false) {box : String}
    (hb : box ∈ ["margin","padding"]) {d : Declaration} (hd : d.property = p) :
    d.isAnySide box = false := by
  simp only [Property.isBox,Bool.or_eq_false_iff] at h
  rw [any_eq_false] at h
  have hs := h.2 box hb
  simp only [Bool.not_eq_true] at hs
  simpa only [isAnySide,isSide,hd] using hs

/-- Minifying declarations keeps the winning bid of every property but those of boxes. -/
lemma winner_bidsOf_minify (hp : p.isBox = false) (ds : List Declaration) :
    winner Bid.rank (bidsOf engine p weight (Declaration.minify ds)) = winner Bid.rank (bidsOf engine p weight ds) := by
  have hk : ∀ d : Declaration, (d.property == p && engine.declaration d) → d.property = p := by
    intro d hd
    simp only [Bool.and_eq_true,beq_iff_eq] at hd
    exact hd.1
  have hn := not_mem_boxes hp
  have collapse : ∀ box ∈ ["margin","padding"], ∀ ds : List Declaration,
      bidsOf engine p weight (collapseSides box ds) = bidsOf engine p weight ds := by
    intro box hb ds
    unfold bidsOf
    rw [filter_collapseSides]
    · intro d hd heq
      rw [hk d hd] at heq
      subst heq
      simp only [mem_cons,not_mem_nil,or_false] at hb
      rcases hb with rfl | rfl <;> simp [boxes] at hn
    · intro d hd
      exact not_side_of_not_isBox hp hb (hk d hd)
  have shorten : ∀ ds : List Declaration, bidsOf engine p weight (ds.map shortenBox) = bidsOf engine p weight ds := by
    intro ds
    unfold bidsOf
    rw [filter_map_shortenBox]
    intro d hd
    rw [hk d hd]
    exact hn
  unfold Declaration.minify
  rw [shorten,winner_bidsOf_dropOverridden,collapse _ (by simp),collapse _ (by simp),winner_bidsOf_dropOverridden]

end

section
variable {σ : Type} [LinearOrder σ]

def outcome (bids : List (Bid σ)) : Option (Bid σ) := winner Bid.rank (bids.map Bid.content)

lemma map_content_winner (bids : List (Bid σ)) : (winner Bid.rank bids).map Bid.content = outcome bids := by
  rw [outcome,winner_map]; rfl

lemma outcome_append (as bs : List (Bid σ)) : outcome (as ++ bs) = better Bid.rank (outcome as) (outcome bs) := by
  rw [outcome,map_append,winner_append]; rfl

lemma outcome_congr {as bs : List (Bid σ)} (h : winner Bid.rank as = winner Bid.rank bs) : outcome as = outcome bs := by
  rw [← map_content_winner,← map_content_winner,h]

variable (engine : Engine) (p : Property)

/-- The last of the most important declarations of a property: its importance and what it says. -/
def best (ds : List Declaration) : Option (Bool × Value) :=
  winner Prod.fst ((ds.filter fun d => d.property == p && engine.declaration d).map fun d =>
    (d.important,d.value.content))

lemma best_congr {as bs : List Declaration} (h : sameAll as bs) : best engine p as = best engine p bs := by
  unfold best
  congr 1
  induction as generalizing bs with
  | nil =>
    cases bs with
    | nil => rfl
    | cons b bs => cases h
  | cons a as ih =>
    cases bs with
    | nil => cases h
    | cons b bs =>
      simp only [sameAll,Bool.and_eq_true] at h
      obtain ⟨hab,hr⟩ := h
      have ha := engine.accepts_same a b hab
      simp only [Declaration.same,Bool.and_eq_true,beq_iff_eq] at hab
      obtain ⟨⟨hp,hi⟩,hv⟩ := hab
      rw [filter_cons,filter_cons,hp,ha]
      split
      · rw [map_cons,map_cons,ih hr,hi,Value.content_eq_of_same hv]
      · exact ih hr

lemma outcome_bidsOf (weight : σ) (ds : List Declaration) :
    outcome (bidsOf engine p weight ds) = (best engine p ds).map fun x => ⟨x.1,weight,x.2⟩ := by
  have hr : ∀ i j : Bool, ((toLex (i,weight) : Bool ×ₗ σ) ≤ toLex (j,weight)) = (i ≤ j) := by
    intro i j
    simp only [Prod.Lex.toLex_le_toLex,le_refl,and_true,le_iff_lt_or_eq (a := i)]
  have hm : (bidsOf engine p weight ds).map Bid.content =
      ((ds.filter fun d => d.property == p && engine.declaration d).map fun d =>
        (d.important,d.value.content)).map fun x => (⟨x.1,weight,x.2⟩ : Bid σ) := by
    simp [bidsOf,Bid.content]
  rw [outcome,hm,winner_map]
  congr 1
  unfold best
  generalize (ds.filter fun d => d.property == p && engine.declaration d).map
    (fun d => (d.important,d.value.content)) = xs
  induction xs with
  | nil => rfl
  | cons x xs ih =>
    rw [winner,winner,ih]
    cases winner Prod.fst xs with
    | none => rfl
    | some w => simp only [better,Bid.rank,hr]

variable (matched : Selector → Bool) (specificity : Selector → σ)

lemma max?_of_mem_iff {xs ys zs : List σ} (h : ∀ x, x ∈ zs ↔ x ∈ xs ∨ x ∈ ys) :
    zs.max? = xs.max?.merge max ys.max? := by
  have : Std.LawfulOrderMax σ := .of_max_le_iff (fun _ _ _ => max_le_iff) max_choice
  cases hx : xs.max? with
  | none =>
    rw [max?_eq_none_iff] at hx
    cases hy : ys.max? with
    | none => simp_all [Option.merge,eq_nil_iff_forall_not_mem]
    | some b => simp_all [Option.merge,max?_eq_some_iff]
  | some a =>
    cases hy : ys.max? with
    | none => simp_all [Option.merge,max?_eq_some_iff]
    | some b =>
      rw [max?_eq_some_iff] at hx hy
      rw [Option.merge,max?_eq_some_iff]
      refine ⟨?_,?_⟩
      · rcases max_choice a b with hm | hm <;> simp [hm,h,hx.1,hy.1]
      · intro x hm
        rcases (h x).mp hm with hm | hm
        · exact (hx.2 x hm).trans (le_max_left _ _)
        · exact (hy.2 x hm).trans (le_max_right _ _)

lemma weight?_addNew {as bs : List Selector} (ha : as.all Selector.isWide) (hb : bs.all Selector.isWide) :
    weight? engine matched specificity (Selector.addNew as bs) =
      (weight? engine matched specificity as).merge max (weight? engine matched specificity bs) := by
  have accept : ∀ {ss : List Selector}, (∀ s ∈ ss, s.isWide) → ss.all engine.selector := by
    intro ss h
    exact all_eq_true.mpr fun s hs => engine.accepts_wide s (h s hs)
  rw [all_eq_true] at ha hb
  have hab : ∀ s ∈ Selector.addNew as bs, s.isWide := by
    intro s hs
    exact ((Selector.mem_addNew as bs s).mp hs).elim (ha s) (hb s)
  simp only [weight?,accept ha,accept hb,accept hab,if_true]
  apply max?_of_mem_iff
  intro x
  simp only [mem_map,mem_filter,Selector.mem_addNew,or_and_right,exists_or]

lemma better_same (x : Option (Bool × Value)) (a b : σ) :
    better Bid.rank (x.map fun x => (⟨x.1,a,x.2⟩ : Bid σ)) (x.map fun x => ⟨x.1,b,x.2⟩) =
      x.map fun x => ⟨x.1,max a b,x.2⟩ := by
  cases x with
  | none => rfl
  | some x =>
    simp only [Option.map_some,better,Bid.rank,Prod.Lex.toLex_le_toLex,lt_irrefl,false_or,true_and]
    rcases le_total a b with hab | hab
    · rw [if_pos hab,max_eq_right hab]
    · rw [max_eq_left hab]
      split
      · rename_i hba
        rw [le_antisymm hab hba]
      · rfl

variable {p}

lemma outcome_merge? (hp : p.isBox = false) {a b m : StyleBlock} (h : StyleBlock.merge? a b = some m) :
    outcome (blockBids engine matched specificity p m) =
      outcome (blockBids engine matched specificity p a ++ blockBids engine matched specificity p b) := by
  unfold StyleBlock.merge? at h
  split at h
  · split at h
    · -- The same selectors: the declarations of both are minified together.
      rename_i _ hsl
      cases h
      simp only [blockBids]
      rw [hsl]
      cases weight? engine matched specificity b.selectors with
      | none => rfl
      | some w =>
        simp only
        rw [← bidsOf_append]
        exact outcome_congr (winner_bidsOf_minify engine w hp _)
    · split at h
      · -- The same declarations: the greater weight counts for both.
        rename_i hs
        simp only [Bool.and_eq_true,StyleBlock.isWide] at hs
        obtain ⟨⟨hd,ha⟩,hb⟩ := hs
        cases h
        have hbs := best_congr engine p hd
        rw [outcome_append]
        simp only [blockBids]
        rw [weight?_addNew engine matched specificity ha hb]
        cases weight? engine matched specificity a.selectors with
        | none =>
          cases weight? engine matched specificity b.selectors with
          | none => rfl
          | some w =>
            simp only [Option.merge]
            rw [outcome_bidsOf,outcome_bidsOf,hbs]; rfl
        | some v =>
          cases weight? engine matched specificity b.selectors with
          | none =>
            simp only [Option.merge]
            rw [show outcome ([] : List (Bid σ)) = none from rfl,better_none]
          | some w =>
            simp only [Option.merge]
            rw [outcome_bidsOf,outcome_bidsOf,outcome_bidsOf,← hbs,better_same]
      · cases h
  · cases h

lemma outcome_mergeAll (hp : p.isBox = false) (candidates : List Rule.Candidate) :
    outcome ((Rule.mergeAll candidates).flatMap (ruleBids engine matched specificity p)) =
      outcome ((candidates.map Rule.Candidate.rule).flatMap (ruleBids engine matched specificity p)) := by
  apply Rule.mergeAll_induction (motive := fun rs =>
    outcome (rs.flatMap (ruleBids engine matched specificity p)) =
      outcome ((candidates.map Rule.Candidate.rule).flatMap (ruleBids engine matched specificity p)))
  · intro pre a b m post hm h
    have hmr := outcome_merge? engine matched specificity hp hm
    rw [← h,flatMap_append,flatMap_append,outcome_append,outcome_append]
    congr 1
    simp only [flatMap_cons,ruleBids]
    rw [outcome_append,hmr,← outcome_append,append_assoc]
  · rfl

lemma outcome_candidates (hp : p.isBox = false) (blocks : List StyleBlock) :
    outcome (((Rule.compactList.candidates (blocks.map fun b => .style b [])).map
        Rule.Candidate.rule).flatMap (ruleBids engine matched specificity p)) =
      outcome (blocks.flatMap (blockBids engine matched specificity p)) := by
  induction blocks with
  | nil => rfl
  | cons b blocks ih =>
    rw [map_cons,Rule.compactList.candidates,flatMap_cons,outcome_append,← ih]
    split
    · rename_i hv
      have he : b.declarations = [] := by simpa [Rule.isVoid,Rule.isVoid.allVoid] using hv
      have hn : blockBids engine matched specificity p b = [] := by
        unfold blockBids
        split
        · rw [he]; rfl
        · rfl
      rw [hn]; rfl
    · rw [map_cons,flatMap_cons,outcome_append]
      congr 1
      apply outcome_congr
      simp only [Rule.compactList.candidate,ruleBids,blockBids,StyleBlock.minify]
      cases weight? engine matched specificity b.selectors with
      | none => rfl
      | some w => exact winner_bidsOf_minify engine w hp _

end

/-- Minified style rules give every element the values that the rules as written give it. -/
theorem winningValue_compactList {σ : Type} [LinearOrder σ] (engine : Engine)
    (matched : Selector → Bool) (specificity : Selector → σ) (p : Property)
    (hp : p.isBox = false) (blocks : List StyleBlock) :
    (winningValue engine matched specificity p
        (Rule.compactList (blocks.map fun b => .style b []))).map Value.content =
      (winningValue engine matched specificity p
        (blocks.map fun b => .style b [])).map Value.content := by
  have hvalue : ∀ bids : List (Bid σ),
      ((winner Bid.rank bids).map Bid.value).map Value.content = (outcome bids).map Bid.value := by
    intro bids
    rw [← map_content_winner]
    cases winner Bid.rank bids <;> rfl
  have hflat : (blocks.map fun b => Rule.style b []).flatMap
      (ruleBids engine matched specificity p) =
        blocks.flatMap (blockBids engine matched specificity p) := by
    rw [flatMap_map]
    rfl
  unfold winningValue
  rw [hvalue, hvalue, Rule.compactList, outcome_mergeAll engine matched specificity hp,
    outcome_candidates engine matched specificity hp, hflat]

def Engine.full : Engine where
  declaration _ := true
  selector _ := true
  accepts_custom _ _ := rfl
  accepts_universal _ _ := rfl
  accepts_wide _ _ := rfl
  accepts_same _ _ _ := rfl

/-- Of `.a{color:red;color:blue}.b{}.a{color:green!important}` an important declaration is left. -/
theorem winningValue_compactList_important : let color := Property.standard "color" none
    let set (name : String) (important : Bool) : Declaration :=
      ⟨color, [.ident name], important, ⟨0, 0⟩⟩
    let blocks : List StyleBlock :=
      [⟨[[.className "a"]], [set "red" false, set "blue" false], [], ⟨0, 0⟩⟩,
       ⟨[[.className "b"]], [], [], ⟨0, 0⟩⟩,
       ⟨[[.className "a"]], [set "green" true], [], ⟨0, 0⟩⟩]
    color.isBox = false ∧ (winningValue Engine.full (fun _ => true) List.length color
        (Rule.compactList (blocks.map fun b => .style b []))).map Value.content =
          some [.ident "green"] := by
  intro color set blocks
  have hbox : color.isBox = false := by decide
  refine ⟨hbox, ?_⟩
  rw [winningValue_compactList Engine.full (fun _ => true) List.length color hbox blocks]
  rfl

end Cascade
end Css
