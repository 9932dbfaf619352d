import Css.Proofs.Cursor.AtRule
import Css.Proofs.Token.Tiles

/-!
# Rules under a cursor

The parser of rules as one that moves a cursor over the tokens of a source.
-/
namespace Css.Cursor
open Token Declaration RuleParser CheckM Bool Nat List

section
variable (d : Dialect) (ts : List Token) (nested : NestedBody) (sc : Scope)

def styleRule (start : Nat) : CheckM (List Rule × Nat) := do
  let first ← token ts start
  let brace ← findTopLevel ts (isSelectorEnd sc) start
  match ts[brace]? with
  | none => throw (.parse .unexpectedEnd (.emptyAt d.file.size))
  | some t =>
    if t.kind == .leftBrace then
      match ← outcome (selectors (selectorContext d sc) (← slice ts start brace)) with
      | .error fault => do
        lift (d.recover fault)
        return ([],skipComponent ts brace)
      | .ok selectors => do
        let (body,stop) ← nested .style t (brace + 1)
        let block := ⟨selectors,body.declarations,body.composes,d.location first⟩
        return ([.style block body.rules],stop)
    else
      let last ← token ts (← pred brace)
      lift (d.recover <| if sc == .style then .parse .invalidDeclaration (first.span.join last.span)
        else .parse (.unexpectedToken t.text) t.span)
      return ([],if t.kind == .semicolon then brace + 1 else brace)

end

def startsDeclarationAt (ts : List Token) (pos : Nat) : CheckM Bool := match ts[pos]? with
  | none => return false
  | some name => do
    let i ← skipBlank ts (pos + 1)
    if ts[i]?.any fun t => t.kind == .colon then
      if Text.startsWith name.text "--" then return true
      else
        let stop ← findTopLevel ts isPreludeEnd i
        return !(ts[stop]?.any fun t => t.kind == .leftBrace)
    else return false

def qualified (d : Dialect) (ts : List Token) (nested : NestedBody)
    (resume : (Body → Body) → Nat → CheckM (Body × Nat)) (sc : Scope) (pos : Nat) (t : Token) :
    CheckM (Body × Nat) := do
  if sc == .top && (t.kind == .cdo || t.kind == .cdc) then resume id (pos + 1)
  else if ← (if sc == .style && t.kind == .ident then startsDeclarationAt ts pos else return false) then
    let (entry,next) ← entryAt d ts pos
    resume (Body.addEntry entry) next
  else
    let (rules,next) ← styleRule d ts nested sc pos
    resume (Body.addRules rules) next

def body (d : Dialect) (ts : List Token) (sc : Scope) (opening : Option Token) (pos : Nat) : CheckM (Body × Nat) :=
  match ts[pos]? with
  | none =>
    match opening with
    | some t => throw (.parse .unclosedBlock t.span)
    | none => return ({},pos)
  | some t =>
    let nested : NestedBody := fun sc opening start =>
      onward ts.length pos start fun _ => body d ts sc (some opening) start
    let resume (add : Body → Body) (next : Nat) : CheckM (Body × Nat) := onward ts.length pos next fun _ => do
        let (b,stop) ← body d ts sc opening next
        return (add b,stop)
    match t.kind with
    | .whitespace | .semicolon => resume id (pos + 1)
    | .rightBrace =>
      if opening.isSome then return ({},pos + 1)
      else do
        lift (d.recover (.parse (.unexpectedToken t.text) t.span))
        resume id (pos + 1)
    | .atKeyword => do
      let (rules,next) ← atRule d ts nested sc pos
      resume (Body.addRules rules) next
    | _ => qualified d ts nested resume sc pos t
termination_by ts.length - pos
decreasing_by all_goals omega

def parse (d : Dialect) (source : String) : CheckM (List Rule) := do
  let (b,_) ← body d (scanRules source) .top none 0
  return b.rules

lemma distinct_scanRules (src : String) : Distinct (scanRules src) := by
  refine List.Pairwise.imp ?_ ((ordered_scanFrom 0 src.toList).sublist filter_sublist)
  intro t u hlt heq
  rw [heq] at hlt
  exact lt_irrefl _ hlt

lemma spanOf_slice {ts : List Token} {i j : Nat} {first last : Token} (hij : i < j)
    (hf : ts[i]? = some first) (hl : ts[j - 1]? = some last) :
    spanOf ((ts.drop i).take (j - i)) = first.span.join last.span := by
  have hh : ((ts.drop i).take (j - i)).head? = some first := by
    rw [drop_eq_cons hf,head?_take,if_neg (by omega)]; rfl
  have he : ((ts.drop i).take (j - i)).getLast? = some last := by
    have hb : i + (j - i - 1) = j - 1 := by omega
    rw [getLast?_take,if_neg (by omega),getElem?_drop,hb,hl]; rfl
  rw [spanOf,hh,he]

section
variable {d : Dialect} {ts : List Token} {nested : NestedBody} {nested' : Nested} {sc : Scope} {pos : Nat} {t : Token}
  (hnested : ∀ (sc : Scope) (opening : Token) {start : Nat}, pos < start ∧ start ≤ ts.length →
    Simulates (Left ts start) (nested sc opening start) (nested' sc opening (ts.drop start)))

include hnested in
lemma simulates_styleRule (ht : ts[pos]? = some t) (he : isEnd t = false) :
    Simulates (Left ts (pos + 1)) (styleRule d ts nested sc pos)
      (RuleParser.styleRule d nested' sc t (ts.drop (pos + 1))) := by
  have hlt : pos < ts.length := (List.getElem?_eq_some_iff.mp ht).1
  obtain ⟨brace,hbr,hs⟩ := findTopLevel_spec ts (isSelectorEnd sc) (le_of_lt hlt)
  have hle := hs.le
  rw [styleRule,token_eq ht,pure_bind,hbr,pure_bind,RuleParser.styleRule,← drop_eq_cons ht,hs.split]
  obtain ⟨hd,hg,-⟩ | ⟨u,hd,hg,hlt'⟩ := drop_cases ts brace
  · rw [hd,hg]
    exact simulates_throw _
  rw [hd,hg]
  dsimp only
  by_cases ho : (u.kind == .leftBrace)
  · rw [if_pos ho,if_pos ho,hs.slice_eq,hs.split,pure_bind,selectors_eq,outcome_of_reads (reads_ofExcept _),pure_bind]
    cases Selector.parseAll (selectorContext d sc) ((ts.drop pos).take (brace - pos)) with
    | error fault =>
      obtain ⟨hm,hsk⟩ := skipComponent_spec hg
      rw [if_pos (by rw [beq_iff_eq.mp ho]; rfl)] at hsk
      exact simulates_lift_bind fun _ =>
        simulates_pure ⟨rfl,lt_of_le_of_lt hle hm.1,hm.2,hsk⟩
    | ok sels =>
      refine simulates_bind_left (hnested .style u ⟨lt_succ_of_le hle,hlt'⟩) fun body stop hst => ?_
      exact simulates_pure ⟨rfl,by dsimp only; omega,hst.2,rfl⟩
  · -- The first token does not end the selectors, so that there is one before the stop.
    have hb : pos < brace := by
      refine hs.lt_of_imp ht hg ?_
      rintro rfl
      simp only [isEnd,or_eq_false_iff] at he
      simp [isSelectorEnd,ho,he]
    obtain ⟨last,hl⟩ : ∃ last, ts[brace - 1]? = some last := ⟨_,List.getElem?_eq_getElem (by omega)⟩
    rw [if_neg ho,if_neg ho,pred_eq (by omega),pure_bind,token_eq hl,pure_bind,spanOf_slice hb ht hl]
    refine simulates_lift_bind fun _ => ?_
    split
    · exact simulates_pure ⟨rfl,succ_le_succ hle,hlt',rfl⟩
    · exact simulates_pure ⟨rfl,hb,le_of_lt hlt',hd⟩

lemma simulates_of_unchanged {R : Body × Nat → Body × List Token → Prop}
    {x : CheckM (Body × Nat)} {y : ParseM (Body × List Token)}
    (h : Simulates R x (y >>= fun found => pure (id found.1,found.2))) : Simulates R x y := by
  have hp : (fun found : Body × List Token => (pure (id found.1,found.2) : ParseM _)) = pure := rfl
  rwa [hp,bind_pure] at h

lemma startsDeclarationAt_eq (ht : ts[pos]? = some t) :
    startsDeclarationAt ts pos = pure (startsDeclaration t (ts.drop (pos + 1))) := by
  have hlt : pos < ts.length := (List.getElem?_eq_some_iff.mp ht).1
  obtain ⟨i,hi,hle,hb⟩ := skipBlank_spec ts hlt
  rw [startsDeclarationAt,ht]
  dsimp only
  rw [hi,pure_bind,startsDeclaration,afterColon?,hb]
  obtain ⟨hd,hg,-⟩ | ⟨u,hd,hg,-⟩ := drop_cases ts i
  · rw [hd,hg]; rfl
  rw [hd,hg]
  dsimp only [Option.any_some]
  by_cases hc : (u.kind == .colon)
  · rw [if_pos hc,if_pos hc]
    dsimp only
    by_cases hds : Text.startsWith t.text "--"
    · rw [if_pos hds,hds]; rfl
    · obtain ⟨stop,hs,hst⟩ := findTopLevel_spec ts isPreludeEnd hle.2
      -- The colon neither stops nor opens anything.
      have hsp : (splitBefore isPreludeEnd 0 (ts.drop (i + 1))).2 = ts.drop stop := by
        have hk := beq_iff_eq.mp hc
        have hr := congrArg Prod.snd hst.split
        rw [hd,splitBefore,if_neg (by simp [isPreludeEnd,hk]),hk] at hr
        exact hr
      rw [if_neg hds,hs,pure_bind,hsp,eq_false_iff.mpr hds]
      obtain ⟨hd,hg,-⟩ | ⟨v,hd,hg,-⟩ := drop_cases ts stop
      · rw [hd,hg]; rfl
      · rw [hd,hg]; rfl
  · rw [if_neg hc,if_neg hc]

include hnested in
lemma simulates_qualified {resume : (Body → Body) → Nat → CheckM (Body × Nat)}
    {rest : List Token → ParseM (Body × List Token)}
    (hr : ∀ (add : Body → Body) {next : Nat}, pos < next ∧ next ≤ ts.length →
      Simulates (Left ts pos) (resume add next) (rest (ts.drop next) >>= fun x => pure (add x.1,x.2)))
    (ht : ts[pos]? = some t) (he : isEnd t = false) :
    Simulates (Left ts pos) (qualified d ts nested resume sc pos t)
      (if sc == .top && (t.kind == .cdo || t.kind == .cdc) then rest (ts.drop (pos + 1))
      else if sc == .style && t.kind == .ident && startsDeclaration t (ts.drop (pos + 1)) then do
        let parts := splitBefore isEnd 0 (ts.drop (pos + 1))
        let e ← d.attempt (parseEntry d t parts.1)
        let (b,post) ← rest parts.2
        return (b.addEntry e,post)
      else do
        let (rs,post) ← RuleParser.styleRule d nested' sc t (ts.drop (pos + 1))
        let (b,post) ← rest post
        return (b.addRules rs,post)) := by
  have hlt : pos < ts.length := (List.getElem?_eq_some_iff.mp ht).1
  rw [qualified]
  split
  · exact simulates_of_unchanged (hr id ⟨Nat.lt_succ_self pos,hlt⟩)
  have hs : (if sc == .style && t.kind == .ident then startsDeclarationAt ts pos else return false) =
      pure (sc == .style && t.kind == .ident && startsDeclaration t (ts.drop (pos + 1))) := by
    rw [startsDeclarationAt_eq ht]
    split
    · next h => rw [h,Bool.true_and]
    · next h => rw [Bool.eq_false_iff.mpr h,Bool.false_and]
  rw [hs,pure_bind]
  split
  · next h =>
      have hk : t.kind = .ident := by
        simp only [Bool.and_eq_true,beq_iff_eq] at h
        exact h.1.2
      have hen := simulates_entryAt d ht he
      rw [hk] at hen
      refine simulates_bind hen ?_
      rintro ⟨e,next⟩ _ hl
      obtain ⟨rfl,hn,hrs⟩ := hl.spec
      rw [show (splitBefore isEnd 0 (ts.drop (pos + 1))).2 = _ from hrs]
      exact hr _ hn
  · refine simulates_bind_left (simulates_styleRule hnested ht he) fun rs next hn => ?_
    exact hr _ hn

end

/-- By induction on the rounds that are left: every round moves the cursor on, so that they are enough. -/
lemma simulates_body (d : Dialect) {ts : List Token} (hd : Distinct ts) {rounds : Nat}
    (sc : Scope) (opening : Option Token) {pos : Nat} (hp : pos ≤ ts.length)
    (hro : ts.length - pos < rounds) :
    Simulates (Left ts pos) (body d ts sc opening pos) (RuleParser.body d rounds sc opening (ts.drop pos)) := by
  induction rounds generalizing sc opening pos with
  | zero => omega
  | succ rounds ih =>
    have hn (sc : Scope) (opening : Option Token) {next : Nat} (h : pos < next ∧ next ≤ ts.length) :
        Simulates (Left ts next) (body d ts sc opening next) (RuleParser.body d rounds sc opening (ts.drop next)) :=
      ih sc opening h.2 (by omega)
    have hnested (sc : Scope) (opening : Token) {start : Nat} (h : pos < start ∧ start ≤ ts.length) :
        Simulates (Left ts start) (onward ts.length pos start fun _ => body d ts sc (some opening) start)
          (RuleParser.body d rounds sc (some opening) (ts.drop start)) := by
      rw [onward_eq h]
      exact hn sc (some opening) h
    have hr (add : Body → Body) {next : Nat} (h : pos < next ∧ next ≤ ts.length) : Simulates (Left ts pos)
          (onward ts.length pos next fun _ => do
            let (b,stop) ← body d ts sc opening next
            return (add b,stop))
          (do
            let (b,rest) ← RuleParser.body d rounds sc opening (ts.drop next)
            return (add b,rest)) := by
      rw [onward_eq h]
      refine simulates_bind_left (hn sc opening h) fun b stop hst => ?_
      exact simulates_pure ⟨rfl,by dsimp only; omega,hst.2,rfl⟩
    rw [body.eq_def,RuleParser.body.eq_def]
    obtain ⟨hdr,hg,-⟩ | ⟨t,hdr,hg,hlt⟩ := drop_cases ts pos
    · rw [hdr,hg]
      cases opening with
      | some t => exact simulates_throw _
      | none => exact simulates_pure ⟨rfl,le_refl pos,hp,hdr⟩
    have hs := simulates_of_unchanged (hr id ⟨lt_succ_self pos,hlt⟩)
    rw [hdr,hg]
    dsimp only
    cases hk : t.kind with
    | whitespace | semicolon => exact hs
    | rightBrace =>
      dsimp only
      split
      · exact simulates_pure ⟨rfl,le_succ pos,hlt,rfl⟩
      · exact simulates_lift_bind fun _ => hs
    | atKeyword =>
      refine simulates_bind_left (simulates_atRule hd hnested hg) fun rs next hm => ?_
      exact hr _ hm
    | _ =>
      have he : isEnd t = false := by simp [isEnd,hk]
      have hrn : Simulates (Left ts pos) (qualified d ts _ _ sc pos t) _ := simulates_qualified hnested hr hg he
      rw [hk] at hrn
      exact hrn

/-- Whatever the source and the dialect, the parser that checks every index, slice, count and round
commits no breach, and does what the parser of rules does. -/
theorem run_parse_eq_ok (d : Dialect) (source : String) (faults : List Fault) :
    (parse d source).run.run faults = .ok ((Rule.parse d source).run.run faults) := by
  have hparse : Simulates Eq (parse d source) (Rule.parse d source) := by
    have hbody := simulates_body d (distinct_scanRules source) .top none (Nat.zero_le _)
      (Nat.lt_succ_self _)
    refine simulates_bind hbody ?_
    rintro ⟨b, stop⟩ ⟨_, rest⟩ hleft
    obtain ⟨rfl, -, -⟩ := hleft.spec
    exact simulates_pure rfl
  rw [eq_lift_of_simulates hparse]
  rfl

end Css.Cursor
