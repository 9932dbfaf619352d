import Css.Declaration.Parser
import Css.Proofs.Cursor.Value
import Mathlib.Data.List.TakeWhile

/-!
# Declarations under a cursor

The parser of declarations as one that moves a cursor over the tokens of a block.
-/
namespace Css.Cursor
open Token Declaration CheckM

def isBang (t : Token) : Bool := t.isDelim '!'

/-- The index of the exclamation mark outside of `depth` brackets, if `i` is that of the first token and
`bang` the one before it. The span of another one is the error. -/
def bangFrom (depth i : Nat) (bang : Option Nat) : List Token → Except Span (Option Nat)
  | [] => .ok bang
  | t :: rest =>
    if depth = 0 && isBang t then
      if bang.isSome then .error t.span else bangFrom depth (i + 1) (some i) rest
    else bangFrom (depthAfter depth t.kind) (i + 1) bang rest

def importantSlices (ts : List Token) : CheckM (Except Span (List Token × Bool)) :=
  match bangFrom 0 0 none ts with
  | .error span => return .error span
  | .ok none => return .ok (ts,false)
  | .ok (some i) => do
    match trimBlank (← slice ts (i + 1) ts.length) with
    | [word] =>
      if word.isIdent "important" then return .ok (trimBlank (← slice ts 0 i),true)
      else return .error (← token ts i).span
    | _ => return .error (← token ts i).span

def declared (d : Dialect) (name : Token) (ts : List Token) : CheckM Declaration := do
  match ← importantSlices (trimBlank ts) with
  | .error span => throw (.parse (.unexpectedToken "!") span)
  | .ok (part,important) =>
    let property := Property.ofName name.name
    if part.isEmpty && !property.isCustom then throw (.parse (.missingValue name.name) name.span)
    else
      let value ← value d.file (d.modules && d.dashed) part
      return ⟨property,value,important,d.location name⟩

def declaration (d : Dialect) (ts : List Token) : CheckM Declaration := do
  let name ← token ts 0
  match ts.findIdx? fun t => t.kind == .colon with
  | none => throw (.parse .invalidDeclaration name.span)
  | some colon =>
    if name.kind != .ident then throw (.parse .invalidDeclaration name.span)
    else if (← slice ts 1 colon).any fun t => !t.isBlank then
      throw (.parse .invalidDeclaration name.span)
    else declared d name (← slice ts (colon + 1) ts.length)

def namedGroup (names : List Component) (source : Option NameSource) :
    Except ComposesProblem (List String × Option NameSource) :=
  if names.isEmpty then .error .expectedName
  else
    match Composes.readNames names with
    | .error problem => .error problem
    | .ok names => .ok (names,source)

def composesGroup (items : List Component) :
    CheckM (Except ComposesProblem (List String × Option NameSource)) :=
  match items.findIdx? fun c => c.isKeyword "from" with
  | none => return namedGroup items none
  | some i => do
    match Composes.readSource (← slice items (i + 1) items.length) with
    | .error problem => return .error problem
    | .ok source => return namedGroup (← slice items 0 i) (some source)

def composesGroups (location : Location) (span : Span) : List Value → CheckM (Except ComposesProblem (List Composes))
  | [] => return .ok []
  | group :: groups => do
    match ← composesGroup (group.filter fun c => !c.isWhitespace) with
    | .error problem => return .error problem
    | .ok (names,source) =>
      match ← composesGroups location span groups with
      | .error problem => return .error problem
      | .ok more => return .ok (⟨names,source,location,span⟩ :: more)

def entry (d : Dialect) (name : Token) (ts : List Token) : CheckM Entry := do
  let declaration ← declaration d ts
  if d.modules && declaration.property == .standard "composes" none then
    let groups := declaration.value.splitOnP Component.isComma
    match ← composesGroups declaration.location name.span groups with
    | .ok groups => return .composes groups
    | .error problem => throw ⟨.modules (.invalidComposes problem),name.span⟩
  else return .declaration declaration

def entryAt (d : Dialect) (ts : List Token) (pos : Nat) : CheckM (Option Entry × Nat) := do
  let stop ← findTopLevel ts isEnd pos
  let name ← token ts pos
  let part ← slice ts pos stop
  let found ← outcome (entry d name part)
  return (← lift (d.attempt found),stop)

def atRuleEnd (ts : List Token) (stop : Nat) : Nat :=
  if ts[stop]?.any fun t => t.kind == .leftBrace then skipComponent ts stop else stop

/-- The declarations of a block from the cursor on, and the index behind its closing brace. -/
def declarationList (d : Dialect) (ts : List Token) (opening : Token) (pos : Nat) :
    CheckM (List Declaration × Nat) :=
  match ts[pos]? with
  | none => throw (.parse .unclosedBlock opening.span)
  | some t =>
    match t.kind with
    | .whitespace | .semicolon =>
      onward ts.length pos (pos + 1) fun _ => declarationList d ts opening (pos + 1)
    | .rightBrace => return ([],pos + 1)
    | .atKeyword => do
      let stop ← findTopLevel ts isPreludeEnd (pos + 1)
      lift (d.recover (.parse (.notAllowed t.name) t.span))
      onward ts.length pos (atRuleEnd ts stop) fun _ =>
        declarationList d ts opening (atRuleEnd ts stop)
    | _ => do
      let (found,stop) ← entryAt d ts pos
      onward ts.length pos stop fun _ => do
        let (more,behind) ← declarationList d ts opening stop
        match found with
        | some (.declaration declaration) => return (declaration :: more,behind)
        | _ => return (more,behind)
termination_by ts.length - pos
decreasing_by all_goals omega

lemma bangFrom_some (depth i bang : Nat) (ts : List Token) :
    bangFrom depth i (some bang) ts = match (splitBefore isBang depth ts).2 with
      | [] => .ok (some bang)
      | second :: _ => .error second.span := by
  induction ts generalizing depth i with
  | nil => rfl
  | cons t rest ih =>
    rw [bangFrom,splitBefore]
    split
    · rfl
    · rw [ih]

lemma bangFrom_none (depth i : Nat) (ts : List Token) : bangFrom depth i none ts =
      match splitBefore isBang depth ts with
      | (_,[]) => .ok none
      | (pre,_ :: post) =>
        match (splitBefore isBang 0 post).2 with
        | [] => .ok (some (i + pre.length))
        | second :: _ => .error second.span := by
  induction ts generalizing depth i with
  | nil => rfl
  | cons t rest ih =>
    rw [bangFrom,splitBefore]
    by_cases h : (decide (depth = 0) && isBang t)
    · have hd : depth = 0 := by simp_all
      rw [if_pos h,if_pos h,if_neg (by simp),bangFrom_some,hd]; rfl
    · rw [if_neg h,if_neg h,ih]
      obtain ⟨pre,post⟩ := splitBefore isBang (depthAfter depth t.kind) rest
      cases post with
      | nil => rfl
      | cons bang post =>
        dsimp only
        cases (splitBefore isBang 0 post).2 with
        | nil =>
          simp only [List.length_cons]
          congr 2
          omega
        | cons second more => rfl

lemma splitImportant_eq (ts : List Token) : splitImportant ts = match splitBefore isBang 0 ts with
      | (_,[]) => .ok (ts,false)
      | (pre,bang :: post) =>
        match (splitBefore isBang 0 post).2 with
        | second :: _ => .error second.span
        | [] =>
          match trimBlank post with
          | [word] =>
            if word.isIdent "important" then .ok (trimBlank pre,true) else .error bang.span
          | _ => .error bang.span :=
  rfl

lemma importantSlices_eq (ts : List Token) : importantSlices ts = pure (splitImportant ts) := by
  have ha := splitBefore_append isBang 0 ts
  rw [importantSlices,bangFrom_none,splitImportant_eq]
  generalize splitBefore isBang 0 ts = ps at ha ⊢
  obtain ⟨pre,_ | ⟨bang,post⟩⟩ := ps
  · rfl
  · dsimp only at ha ⊢
    cases (splitBefore isBang 0 post).2 with
    | cons second more => rfl
    | nil =>
      have hb : token ts pre.length = pure bang := token_eq (by rw [← ha]; simp)
      obtain ⟨hbf,haf⟩ := slice_around ha.symm
      dsimp only
      rw [Nat.zero_add,hb,hbf,haf,pure_bind]
      split
      · split <;> rfl
      · rfl

lemma composesGroup_eq (items : List Component) :
    composesGroup items = pure (Composes.readGroup items) := by
  rw [composesGroup,Composes.readGroup]
  obtain ⟨hf,ha⟩ | ⟨ns,c,src,rfl,hf,hc,ha⟩ := findIdx?_cases (fun c => c.isKeyword "from") items
  · have ht : items.takeWhile (fun c => !c.isKeyword "from") = items := List.takeWhile_eq_self_iff.mpr (by simpa using ha)
    have hd : items.dropWhile (fun c => !c.isKeyword "from") = [] := List.dropWhile_eq_nil_iff.mpr (by simpa using ha)
    rw [hf,ht,hd]
    dsimp only
    rw [namedGroup,pure_bind]
    split
    · rfl
    · cases Composes.readNames items <;> rfl
  · obtain ⟨ht,hd⟩ := takeWhile_dropWhile_of_first ha hc src
    obtain ⟨hn,hs⟩ := slice_around (rfl : ns ++ c :: src = ns ++ c :: src)
    rw [hf,ht,hd]
    dsimp only
    rw [hs,pure_bind,hn]
    cases Composes.readSource src with
    | error problem => rfl
    | ok src =>
      dsimp only
      rw [pure_bind,namedGroup]
      split
      · rfl
      · cases Composes.readNames ns <;> rfl

lemma composesGroups_eq (loc : Location) (span : Span) (groups : List Value) :
    composesGroups loc span groups = pure (groups.mapM fun group => do
        let (ns,src) ← Composes.readGroup (group.filter fun c => !c.isWhitespace)
        return ⟨ns,src,loc,span⟩) := by
  induction groups with
  | nil => rfl
  | cons group groups ih =>
    rw [composesGroups,composesGroup_eq,pure_bind,List.mapM_cons]
    cases Composes.readGroup (group.filter fun c => !c.isWhitespace) with
    | error problem => rfl
    | ok found =>
      obtain ⟨ns,src⟩ := found
      dsimp only
      rw [ih,pure_bind]
      generalize List.mapM (m := Except ComposesProblem) _ groups = more
      cases more <;> rfl

lemma afterColon?_blank {blank : List Token} (hb : ∀ t ∈ blank, t.isBlank)
    {colon : Token} (hc : colon.kind = .colon) (post : List Token) :
    afterColon? (blank ++ colon :: post) = some post := by
  have hd : dropBlank (blank ++ colon :: post) = colon :: post := by
    rw [dropBlank,List.dropWhile_append_of_pos hb,List.dropWhile_cons_of_neg (by simp [isBlank,hc])]
  rw [afterColon?,hd]
  simp [hc]

variable {rest : List Token}

lemma afterColon?_other {part : List Token} (hc : ∀ t ∈ part, t.kind ≠ .colon)
    (h : rest = [] ∨ ∃ t ∈ part, t.isBlank = false) : afterColon? (part ++ rest) = none := by
  have hh {u : Token} {post : List Token} (hu : dropBlank (part ++ rest) = u :: post) : u ∈ part := by
    rw [dropBlank,List.dropWhile_append] at hu
    cases hv : part.dropWhile isBlank with
    | nil =>
      have ha := List.dropWhile_eq_nil_iff.mp hv
      rw [hv,if_pos List.isEmpty_nil] at hu
      obtain rfl | ⟨t,ht,hb⟩ := h
      · cases hu
      · rw [ha t ht] at hb; cases hb
    | cons v more =>
      rw [hv,if_neg (by simp)] at hu; cases hu
      exact (List.dropWhile_sublist _).subset (hv ▸ List.mem_cons_self)
  rw [afterColon?]
  split
  · next u post hu => rw [if_neg (by simpa using hc u (hh hu))]
  · rfl

lemma parse_eq_error {d : Dialect} {name : Token} (h : name.kind ≠ .ident ∨ afterColon? rest = none) :
    Declaration.parse d name rest = .error (.parse .invalidDeclaration name.span) := by
  rw [Declaration.parse]
  obtain h | h := h
  · rw [if_neg (by simpa using h)]
  · simp [h]

variable {ts : List Token}

lemma reads_declared (d : Dialect) {name : Token} (hn : name.kind = .ident) (ht : afterColon? rest = some ts) :
    Reads Eq (declared d name ts) (Declaration.parse d name rest) := by
  rw [declared,Declaration.parse,if_pos (by simp [hn]),ht,importantSlices_eq,pure_bind]
  dsimp only
  cases splitImportant (trimBlank ts) with
  | error span => exact reads_throw _
  | ok found =>
    obtain ⟨part,important⟩ := found
    dsimp only
    split
    · exact reads_throw _
    · exact (reads_value d.file (d.modules && d.dashed) part).elim_eq reads_throw fun _ _ => reads_pure rfl

lemma reads_declaration (d : Dialect) (name : Token) (rest : List Token) :
    Reads Eq (declaration d (name :: rest)) (Declaration.parse d name rest) := by
  rw [declaration,token_eq rfl,pure_bind]
  obtain ⟨hf,ha⟩ | ⟨pre,colon,post,htk,hf,hc,ha⟩ := findIdx?_cases (fun t : Token => t.kind == .colon) (name :: rest)
  · have hn : afterColon? (rest ++ []) = none :=
      afterColon?_other (fun t ht => by simpa using ha t (List.mem_cons_of_mem name ht)) (.inl rfl)
    rw [hf,parse_eq_error (.inr (by simpa using hn))]
    exact reads_throw _
  · rw [hf]
    dsimp only
    by_cases hi : name.kind = .ident
    · -- The name is no colon, so that the slice behind it is in bounds.
      rw [if_neg (by simp [hi])]
      cases pre with
      | nil =>
        cases htk
        rw [hi] at hc; cases hc
      | cons _ blank =>
        rw [List.cons_append] at htk
        obtain ⟨rfl,rfl⟩ := List.cons.inj htk
        have hp : name :: (blank ++ colon :: post) = [name] ++ blank ++ colon :: post := rfl
        have hb : slice (name :: (blank ++ colon :: post)) 1 (name :: blank).length = pure blank :=
          slice_part hp rfl (Nat.add_comm _ 1)
        have har : name :: (blank ++ colon :: post) = (name :: blank) ++ colon :: post := rfl
        rw [hb,pure_bind,(slice_around har).2]
        by_cases ho : blank.any (fun t => !t.isBlank) = true
        · have hn : afterColon? (blank ++ colon :: post) = none := afterColon?_other
              (fun t ht => by simpa using ha t (List.mem_cons_of_mem name ht))
              (.inr (by simpa using ho))
          rw [if_pos ho,parse_eq_error (.inr hn)]
          exact reads_throw _
        · rw [if_neg ho,pure_bind]
          exact reads_declared d hi (afterColon?_blank (by simpa using ho) (beq_iff_eq.mp hc) post)
    · rw [if_pos (by simpa using hi),parse_eq_error (.inl hi)]
      exact reads_throw _

lemma reads_entry (d : Dialect) (name : Token) (rest : List Token) :
    Reads Eq (entry d name (name :: rest)) (parseEntry d name rest) := by
  rw [entry,parseEntry]
  refine (reads_declaration d name rest).elim_eq reads_throw fun decl _ => ?_
  rw [pure_bind]
  dsimp only
  split
  · rw [composesGroups_eq,pure_bind]
    change Reads Eq (match Composes.read decl.value decl.location name.span with
      | .ok groups => _
      | .error problem => _) _
    cases Composes.read decl.value decl.location name.span with
    | error problem => exact reads_throw _
    | ok groups => exact reads_pure rfl
  · exact reads_pure rfl

variable {pos : Nat}

lemma simulates_entryAt (d : Dialect) {t : Token} (ht : ts[pos]? = some t) (he : isEnd t = false) : Simulates
      (fun x found => Left ts (pos + 1) x (found,(splitBefore isEnd (depthAfter 0 t.kind) (ts.drop (pos + 1))).2))
      (entryAt d ts pos)
      (d.attempt (parseEntry d t (splitBefore isEnd (depthAfter 0 t.kind) (ts.drop (pos + 1))).1)) := by
  have hlt : pos < ts.length := (List.getElem?_eq_some_iff.mp ht).1
  obtain ⟨stop,hst,hs⟩ := findTopLevel_spec ts isEnd (Nat.le_of_lt hlt)
  have hsp : splitBefore isEnd 0 (ts.drop pos) = (t :: (splitBefore isEnd (depthAfter 0 t.kind) (ts.drop (pos + 1))).1,
        (splitBefore isEnd (depthAfter 0 t.kind) (ts.drop (pos + 1))).2) := by
    rw [drop_eq_cons ht,splitBefore]
    simp [he]
  have hsl := hs.slice_eq
  have hr := congrArg Prod.snd hs.split
  rw [hsp] at hsl hr
  rw [entryAt,hst,pure_bind,token_eq ht,pure_bind,hsl,pure_bind,outcome_of_reads (reads_entry d t _),pure_bind]
  refine simulates_lift_map (fun found => ?_) _
  exact ⟨rfl,hs.lt ht he,hs.le_length,hr.symm⟩

def parseParts (d : Dialect) (opening : Token) (items : List Item) (after : Option (List Token)) :
    ParseM (List Declaration × List Token) := do
  let declarations ← parseItems d items
  match after with
  | some after => return (declarations,after)
  | none => throw (.parse .unclosedBlock opening.span)

lemma parseParts_cons (d : Dialect) (opening : Token) (item : Item) (xs : List Item) (post : Option (List Token)) :
    parseParts d opening (item :: xs) post = (do
      let found ← parseItem d item
      let (more,post) ← parseParts d opening xs post
      return (found ++ more,post)) := by
  simp only [parseParts,parseItems,List.mapM_cons,bind_assoc,pure_bind,List.flatten_cons]
  congr 1
  funext found
  congr 1
  funext more
  cases post <;> rfl

lemma parseBlock_eq (d : Dialect) (opening : Token) (ts : List Token) : parseBlock d opening ts =
      parseParts d opening (splitItems ts).1 (splitItems ts).2 :=
  rfl

lemma parseBlock_nil (d : Dialect) (opening : Token) :
    parseBlock d opening [] = throw (.parse .unclosedBlock opening.span) := by
  rw [parseBlock_eq,splitItems]; rfl

/-- A declaration or another entry, cut off the block that goes on behind it. -/
def parseEntryOf (d : Dialect) (opening t : Token) (parts : List Token × List Token) :
    ParseM (List Declaration × List Token) := do
  let found ← d.attempt (parseEntry d t parts.1)
  let (more,post) ← parseBlock d opening parts.2
  match found with
  | some (.declaration decl) => return (decl :: more,post)
  | _ => return (more,post)

lemma parseBlock_cons (d : Dialect) (opening t : Token) (rest : List Token) :
    parseBlock d opening (t :: rest) = match t.kind with
      | .whitespace | .semicolon => parseBlock d opening rest
      | .rightBrace => return ([],rest)
      | .atKeyword => do
        d.recover (.parse (.notAllowed t.name) t.span)
        parseBlock d opening (dropAtRule rest)
      | _ => parseEntryOf d opening t (splitBefore isEnd (depthAfter 0 t.kind) rest) := by
  have ha : parseParts d opening (.atRule t :: (splitItems (dropAtRule rest)).1) (splitItems (dropAtRule rest)).2 = (do
        d.recover (.parse (.notAllowed t.name) t.span)
        parseBlock d opening (dropAtRule rest)) := by
    rw [parseParts_cons,parseItem,bind_assoc]
    congr 1
    funext _
    rw [pure_bind]
    exact bind_pure _
  have hd (parts : List Token × List Token) :
      parseParts d opening (.declaration t parts.1 :: (splitItems parts.2).1) (splitItems parts.2).2 =
        parseEntryOf d opening t parts := by
    rw [parseEntryOf,parseParts_cons,parseItem,bind_assoc]
    congr 1
    funext found
    obtain _ | ⟨decl | groups⟩ := found <;> rfl
  rw [parseBlock_eq,splitItems]
  cases hk : t.kind with
  | whitespace | semicolon | rightBrace => rfl
  | atKeyword => exact ha
  | _ => exact hd _

lemma atRuleEnd_spec {stop : Nat} (h : StopsAt ts isPreludeEnd pos stop) :
    (pos ≤ atRuleEnd ts stop ∧ atRuleEnd ts stop ≤ ts.length) ∧
      ts.drop (atRuleEnd ts stop) = dropAtRule (ts.drop pos) := by
  have hr : (splitBefore isPreludeEnd 0 (ts.drop pos)).2 = ts.drop stop := congrArg Prod.snd h.split
  have hle := h.le
  rw [atRuleEnd,dropAtRule,hr]
  obtain ⟨hd,hg,-⟩ | ⟨t,hd,hg,-⟩ := drop_cases ts stop
  · rw [hd,hg]
    exact ⟨⟨h.le,h.le_length⟩,hd⟩
  · obtain ⟨hm,hs⟩ := skipComponent_spec hg
    rw [hd,hg]
    dsimp only [Option.any_some]
    split
    · next hb =>
        rw [hs,if_pos (by rw [beq_iff_eq.mp hb]; rfl)]
        exact ⟨⟨by omega,hm.2⟩,rfl⟩
    · exact ⟨⟨h.le,h.le_length⟩,hd⟩

lemma simulates_declarationList (d : Dialect) (ts : List Token) (opening : Token) (hp : pos ≤ ts.length) :
    Simulates (Left ts (pos + 1)) (declarationList d ts opening pos)
      (parseBlock d opening (ts.drop pos)) := by
  induction hn : ts.length - pos using Nat.strongRecOn generalizing pos with
  | ind n ih =>
    rw [declarationList]
    obtain ⟨hd,hg,-⟩ | ⟨t,hd,hg,hlt⟩ := drop_cases ts pos
    · rw [hd,hg,parseBlock_nil]
      exact simulates_throw _
    · have hnx {behind : Nat} (hm : pos < behind ∧ behind ≤ ts.length) :
          Simulates (Left ts (pos + 1)) (declarationList d ts opening behind)
            (parseBlock d opening (ts.drop behind)) :=
        (ih (ts.length - behind) (by omega) hm.2 rfl).mono fun a b h => h.mono (by omega)
      have hs : pos < pos + 1 ∧ pos + 1 ≤ ts.length := ⟨Nat.lt_succ_self pos,hlt⟩
      have hen (he : isEnd t = false) : Simulates (Left ts (pos + 1)) (do
              let (found,stop) ← entryAt d ts pos
              onward ts.length pos stop fun _ => do
                let (more,behind) ← declarationList d ts opening stop
                match found with
                | some (.declaration decl) => return (decl :: more,behind)
                | _ => return (more,behind))
            (parseEntryOf d opening t (splitBefore isEnd (depthAfter 0 t.kind) (ts.drop (pos + 1)))) := by
        rw [parseEntryOf]
        refine simulates_bind (simulates_entryAt d hg he) ?_
        rintro ⟨found,stop⟩ _ hl
        obtain ⟨rfl,hm,hr⟩ := hl.spec
        dsimp only
        rw [onward_eq hm,hr]
        refine simulates_bind_left (hnx hm) fun more behind hb => ?_
        obtain _ | ⟨decl | groups⟩ := found <;>
          exact simulates_pure ⟨rfl,hb.1,hb.2,rfl⟩
      rw [hd,hg,parseBlock_cons]
      dsimp only
      cases hk : t.kind with
      | whitespace | semicolon =>
        dsimp only
        rw [onward_eq hs]
        exact hnx hs
      | rightBrace => exact simulates_pure ⟨rfl,Nat.le_refl _,hlt,rfl⟩
      | atKeyword =>
        obtain ⟨stop,hst,hss⟩ := findTopLevel_spec ts isPreludeEnd hlt
        obtain ⟨⟨hle,hle_length⟩,hr⟩ := atRuleEnd_spec hss
        have hm : pos < atRuleEnd ts stop ∧ atRuleEnd ts stop ≤ ts.length := ⟨hle,hle_length⟩
        dsimp only
        rw [hst,pure_bind,← hr,onward_eq hm]
        exact simulates_lift_bind fun _ => hnx hm
      | _ =>
        have he : isEnd t = false := by simp [isEnd,hk]
        rw [hk] at hen
        exact hen he

end Css.Cursor
