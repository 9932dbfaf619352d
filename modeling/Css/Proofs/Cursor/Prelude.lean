import Css.Proofs.Cursor.Declaration
import Css.Proofs.Cursor.Media
import Css.Rule.Keyframes

/-!
# Preludes and keyframes under a cursor

The preludes of rules are slices that are cut further: at commas, at the end of an address and at the
end of a function.
-/
namespace Css.Cursor
open List Token Declaration CheckM
open Keyframe (isBrace splitFrames splitPrelude)

def layerNames (ts : List Token) : CheckM (Option (List String)) := do
  match (← commaSlices ts).mapM fun part => Prelude.layerName? (trimBlank part) with
  | some [] => return none
  | names => return names

def keyframeSelectors (ts : List Token) : CheckM (Option (List KeyframeSelector)) := do
  return (← commaSlices ts).mapM fun part => Prelude.keyframeSelector? (trimBlank part)

def address : List Token → CheckM (Option (String × List Token))
  | [] => return none
  | t :: rest =>
    if t.kind == .string then return some (t.stringValue,rest)
    else if t.kind == .url then return some (t.urlValue,rest)
    else if t.isFunction "url" then
      match rest.findIdx? fun u => u.kind == .rightParen with
      | none => return none
      | some close => do
        match trimBlank (← slice rest 0 close) with
        | [u] =>
          if u.kind == .string then
            return some (u.stringValue,← slice rest (close + 1) rest.length)
          else return none
        | _ => return none
    else return none

def namespaceOf (ts : List Token) : CheckM (Option Statement) := do
  let (name,rest) :=
    match ts with
    | t :: rest => if t.kind == .ident then (some t.name,trimBlank rest) else (none,ts)
    | [] => (none,[])
  match ← address rest with
  | some (url,after) =>
    return if (trimBlank after).isEmpty then some (.namespaceOf name url) else none
  | none => return none

def functionEnd (ts : List Token) : Nat := match matchingClose ts 0 with
  | some i => i + 1
  | none => ts.length

/-- The arguments of the function that the tokens start with, and what follows it. There are none if their
end is before their start. -/
def importArguments (ts : List Token) : CheckM (Option (List Token × List Token)) := do
  if 1 ≤ functionEnd ts - 1 then
    let inner ← slice ts 1 (functionEnd ts - 1)
    return some (inner,← slice ts (functionEnd ts) ts.length)
  else return none

def importLayer (ts : List Token) : CheckM (Option (Option (Option String) × List Token)) :=
  match ts[0]? with
  | none => return some (none,ts)
  | some t => do
    if t.isIdent "layer" then
      return some (some none,trimBlank (← slice ts 1 ts.length))
    else if t.isFunction "layer" then
      match ← importArguments ts with
      | none => return none
      | some (inner,after) =>
        match Prelude.layerName? (trimBlank inner) with
        | none => return none
        | some name => return some (some (some name),trimBlank after)
    else return some (none,ts)

def importSupports (file : SourceFile) (ts : List Token) : CheckM (Option (Option Value × List Token)) :=
  match ts[0]? with
  | none => return some (none,ts)
  | some t => do
    if t.isFunction "supports" then
      match ← importArguments ts with
      | none => return none
      | some (inner,after) => return some (some (← value file false inner),trimBlank after)
    else return some (none,ts)

def importSheet (file : SourceFile) (ts : List Token) : CheckM (Option Statement) := do
  match ← address ts with
  | none => return none
  | some (url,rest) =>
    match ← importLayer (trimBlank rest) with
    | none => return none
    | some (layer,rest) =>
      match ← importSupports file rest with
      | none => return none
      | some (supports,rest) =>
        return some (.importSheet url layer supports (← mediaList file rest))

def keyframes (d : Dialect) (ts : List Token) (opening : Token) (pos : Nat) :
    CheckM (List Keyframe × Nat) :=
  match ts[pos]? with
  | none => throw (.parse .unclosedBlock opening.span)
  | some t => do
    if t.kind == .whitespace || t.kind == .semicolon then
      onward ts.length pos (pos + 1) fun _ => keyframes d ts opening (pos + 1)
    else if t.kind == .rightBrace then return ([],pos + 1)
    else
      let brace ← findTopLevel ts isBrace pos
      match ts[brace]?.filter fun u => u.kind == .leftBrace with
      | none =>
        lift (d.recover (.parse .invalidKeyframe t.span))
        onward ts.length pos brace fun _ => keyframes d ts opening brace
      | some block =>
        match ← keyframeSelectors (← slice ts pos brace) with
        | none =>
          lift (d.recover (.parse .invalidKeyframe t.span))
          onward ts.length pos (skipComponent ts brace) fun _ =>
            keyframes d ts opening (skipComponent ts brace)
        | some selectors =>
          let (declarations,stop) ← declarationList d ts block (brace + 1)
          onward ts.length pos stop fun _ => do
            let (more,behind) ← keyframes d ts opening stop
            return (⟨selectors,declarations,d.location t⟩ :: more,behind)
termination_by ts.length - pos
decreasing_by all_goals omega

lemma layerNames_eq (ts : List Token) : layerNames ts = pure (Prelude.layerNames? ts) := by
  rw [layerNames,Prelude.layerNames?,commaSlices_eq,pure_bind]
  obtain _ | _ | ⟨name,ns⟩ := (commaParts ts).mapM fun part => Prelude.layerName? (trimBlank part) <;> rfl

lemma keyframeSelectors_eq (ts : List Token) :
    keyframeSelectors ts = pure (Prelude.keyframeSelectors? ts) := by
  rw [keyframeSelectors,commaSlices_eq,pure_bind]; rfl

lemma address_eq (ts : List Token) : address ts = pure (Prelude.address? ts) := by
  cases ts with
  | nil => rfl
  | cons t rest =>
    rw [address,Prelude.address?]
    split
    · rfl
    · split
      · rfl
      · split
        · obtain ⟨hf,ha⟩ | ⟨inner,close,post,rfl,hf,hc,ha⟩ := findIdx?_cases (fun u : Token => u.kind == .rightParen) rest
          · have hd : rest.dropWhile (fun u => u.kind != .rightParen) = [] := dropWhile_eq_nil_iff.mpr (by simpa using ha)
            rw [hf,hd]
          · have hs := takeWhile_dropWhile_of_first ha hc post
            have ht : (inner ++ close :: post).takeWhile (fun u => u.kind != .rightParen) = inner := hs.1
            have hd : (inner ++ close :: post).dropWhile (fun u => u.kind != .rightParen) =
                close :: post :=
              hs.2
            obtain ⟨hi,haf⟩ := slice_around (rfl : inner ++ close :: post = inner ++ close :: post)
            rw [hf,ht,hd]
            dsimp only
            rw [hi,pure_bind,haf]
            obtain _ | ⟨u,_ | _⟩ := trimBlank inner
            · rfl
            · dsimp only
              split <;> rfl
            · rfl
        · rfl

lemma namespaceOf_eq (ts : List Token) : namespaceOf ts = pure (Prelude.namespaceOf? ts) := by
  unfold namespaceOf Prelude.namespaceOf?
  dsimp only
  rw [address_eq,pure_bind]
  generalize Prelude.address? _ = found
  cases found <;> rfl

variable {t : Token}

lemma functionEnd_eq (ht : t.kind.opens) (rest : List Token) : functionEnd (t :: rest) =
      match splitClosing 1 rest with
      | some (inner,_) => inner.length + 2
      | none => rest.length + 1 := by
  have hc : matchingClose (t :: rest) 0 = (splitClosing 1 rest).map fun ps => 0 + 1 + ps.1.length :=
    matchingClose_eq rfl ht
  rw [functionEnd,hc]
  cases splitClosing 1 rest with
  | none => rfl
  | some ps =>
    obtain ⟨inner,post⟩ := ps
    simp only [Option.map_some]
    omega

lemma importArguments_eq (ht : t.kind.opens) (rest : List Token) :
    importArguments (t :: rest) = pure (Prelude.arguments? rest) := by
  rw [importArguments,functionEnd_eq ht,Prelude.arguments?]
  cases hs : splitClosing 1 rest with
  | some ps =>
    obtain ⟨inner,post⟩ := ps
    obtain ⟨close,rfl⟩ := eq_of_splitClosing hs
    have hp : t :: (inner ++ close :: post) = [t] ++ inner ++ close :: post := rfl
    have ha : t :: (inner ++ close :: post) = (t :: inner) ++ close :: post := rfl
    have hi : slice (t :: (inner ++ close :: post)) 1 (inner.length + 1) = pure inner :=
      slice_part hp rfl (Nat.add_comm _ 1)
    have haf : slice (t :: (inner ++ close :: post)) (inner.length + 2)
        (t :: (inner ++ close :: post)).length = pure post :=
      (slice_around ha).2
    have he : inner.length + 2 - 1 = inner.length + 1 := rfl
    dsimp only
    rw [he,if_pos (by omega),hi,pure_bind,haf,pure_bind]
  | none =>
    have he : rest.length + 1 - 1 = rest.length := rfl
    dsimp only
    rw [he]
    cases rest with
    | nil => rfl
    | cons u rest =>
      rw [if_pos (by simp),slice_eq (by simp) (by simp),pure_bind,slice_eq (by simp) (by simp),
        pure_bind,if_neg (by simp)]
      simp [dropLast_eq_take]

lemma opens_of_isFunction {name : String} (h : t.isFunction name) : t.kind.opens := by
  rw [isFunction,Bool.and_eq_true,beq_iff_eq] at h
  rw [h.1]; rfl

lemma importLayer_eq (ts : List Token) : importLayer ts = pure (Prelude.importLayer? ts) := by
  cases ts with
  | nil => rfl
  | cons t rest =>
    have hr : slice (t :: rest) 1 (t :: rest).length = pure rest := by
      rw [slice_eq (by simp) (by simp)]
      simp
    rw [importLayer,Prelude.importLayer?]
    dsimp only [getElem?_cons_zero]
    split
    · rw [hr]; rfl
    · split
      · next hf =>
          rw [importArguments_eq (opens_of_isFunction hf),pure_bind]
          cases Prelude.arguments? rest with
          | none => rfl
          | some ps =>
            obtain ⟨inner,post⟩ := ps
            change (match Prelude.layerName? (trimBlank inner) with
              | none => _
              | some name => _) = pure (Prelude.layerName? (trimBlank inner) >>= _)
            cases Prelude.layerName? (trimBlank inner) <;> rfl
      · rfl

lemma reads_importSupports (file : SourceFile) (ts : List Token) :
    Reads Eq (importSupports file ts) (Prelude.importSupports? file ts) := by
  cases ts with
  | nil => exact reads_pure rfl
  | cons t rest =>
    rw [importSupports,Prelude.importSupports?]
    dsimp only [getElem?_cons_zero]
    split
    · next hf =>
        rw [importArguments_eq (opens_of_isFunction hf),pure_bind]
        cases Prelude.arguments? rest with
        | none => exact reads_pure rfl
        | some ps =>
          obtain ⟨inner,post⟩ := ps
          dsimp only
          exact (reads_value file false inner).elim_eq reads_throw fun _ _ => reads_pure rfl
    · exact reads_pure rfl

variable {ts rest : List Token}

lemma sublist_of_address? {url : String} (h : Prelude.address? ts = some (url,rest)) :
    rest.Sublist ts := by
  cases ts with
  | nil => cases h
  | cons t ts =>
    rw [Prelude.address?] at h
    split at h
    · cases h
      exact sublist_cons_self t _
    · split at h
      · cases h
        exact sublist_cons_self t _
      · split at h
        · split at h
          · cases h
          · next close post hd =>
              have ha : post.Sublist (t :: ts) := ((sublist_cons_self close post).trans
                  (hd ▸ dropWhile_sublist _)).trans (sublist_cons_self t ts)
              split at h
              · split at h
                · cases h
                  exact ha
                · cases h
              · cases h
        · cases h

lemma sublist_of_arguments? {inner post : List Token} (h : Prelude.arguments? ts = some (inner,post)) :
    inner.Sublist ts ∧ post.Sublist ts := by
  rw [Prelude.arguments?] at h
  split at h
  · next hs =>
      cases h
      obtain ⟨close,rfl⟩ := eq_of_splitClosing hs
      exact ⟨sublist_append_left inner _,(sublist_cons_self close post).trans (sublist_append_right inner _)⟩
  · split at h
    · cases h
    · cases h
      exact ⟨dropLast_sublist ts,nil_sublist _⟩

lemma sublist_of_importLayer? {layer : Option (Option String)}
    (h : Prelude.importLayer? ts = some (layer,rest)) : rest.Sublist ts := by
  cases ts with
  | nil =>
    cases h
    exact List.Sublist.refl _
  | cons t ts =>
    rw [Prelude.importLayer?] at h
    split at h
    · cases h
      exact (trimBlank_sublist ts).trans (sublist_cons_self t ts)
    · split at h
      · obtain ⟨⟨inner,post⟩,ha,h⟩ := Option.bind_eq_some_iff.mp h
        obtain ⟨name,-,h⟩ := Option.bind_eq_some_iff.mp h
        cases h
        exact ((trimBlank_sublist post).trans (sublist_of_arguments? ha).2).trans (sublist_cons_self t ts)
      · cases h
        exact List.Sublist.refl _

lemma sublist_of_importSupports? {file : SourceFile} {supports : Option Value}
    (h : Prelude.importSupports? file ts = .ok (some (supports,rest))) : rest.Sublist ts := by
  cases ts with
  | nil =>
    cases h
    exact List.Sublist.refl _
  | cons t ts =>
    rw [Prelude.importSupports?] at h
    split at h
    · split at h
      · cases h
      · next inner post ha =>
          split at h
          · cases h
          · cases h
            exact ((trimBlank_sublist post).trans (sublist_of_arguments? ha).2).trans (sublist_cons_self t ts)
    · cases h
      exact List.Sublist.refl _

lemma reads_importSheet (file : SourceFile) (hd : Distinct ts) :
    Reads Eq (importSheet file ts) (Prelude.importSheet? file ts) := by
  rw [importSheet,Prelude.importSheet?,address_eq,pure_bind]
  cases ha : Prelude.address? ts with
  | none => exact reads_pure rfl
  | some found =>
    obtain ⟨url,rest⟩ := found
    dsimp only
    rw [importLayer_eq,pure_bind]
    cases hl : Prelude.importLayer? (trimBlank rest) with
    | none => exact reads_pure rfl
    | some found =>
      obtain ⟨layer,rest'⟩ := found
      dsimp only
      refine (reads_importSupports file rest').elim_eq reads_throw fun found hy => ?_
      rw [pure_bind]
      cases found with
      | none => exact reads_pure rfl
      | some found =>
        obtain ⟨supports,last⟩ := found
        have hls : last.Sublist ts := (sublist_of_importSupports? hy).trans <| (sublist_of_importLayer? hl).trans <|
            (trimBlank_sublist rest).trans (sublist_of_address? ha)
        dsimp only
        exact (reads_mediaList file (hd.sublist hls)).elim_eq reads_throw fun _ _ => reads_pure rfl

def parseFrames (d : Dialect) (opening : Token) (items : List Keyframe.Item)
    (after : Option (List Token)) : ParseM (List Keyframe × List Token) := do
  let frames ← items.mapM (Keyframe.parseItem d)
  match after with
  | some after => return (frames.flatten,after)
  | none => throw (.parse .unclosedBlock opening.span)

lemma parseFrames_cons (d : Dialect) (opening : Token) (item : Keyframe.Item)
    (xs : List Keyframe.Item) (post : Option (List Token)) :
    parseFrames d opening (item :: xs) post = (do
      let found ← Keyframe.parseItem d item
      let (more,post) ← parseFrames d opening xs post
      return (found ++ more,post)) := by
  simp only [parseFrames,mapM_cons,bind_assoc,pure_bind,flatten_cons]
  congr 1
  funext found
  congr 1
  funext more
  cases post <;> rfl

lemma parseFrames_eq (d : Dialect) (opening : Token) (ts : List Token) : Keyframe.parseBlock d opening ts =
      parseFrames d opening (splitFrames ts).1 (splitFrames ts).2 :=
  rfl

lemma parseFrames_nil (d : Dialect) (opening : Token) :
    Keyframe.parseBlock d opening [] = throw (.parse .unclosedBlock opening.span) := by
  rw [parseFrames_eq,splitFrames]; rfl

lemma parseFrames_invalid (d : Dialect) (opening t : Token) (ts : List Token) :
    parseFrames d opening (.invalid t :: (splitFrames ts).1) (splitFrames ts).2 = (do
      d.recover (.parse .invalidKeyframe t.span)
      Keyframe.parseBlock d opening ts) := by
  rw [parseFrames_cons,Keyframe.parseItem,bind_assoc]
  congr 1
  funext _
  rw [pure_bind]
  exact bind_pure _

lemma splitFrames_cons (t : Token) (rest : List Token) : splitFrames (t :: rest) =
      if t.kind == .whitespace || t.kind == .semicolon then splitFrames rest
      else if t.kind == .rightBrace then ([],some rest)
      else
        match (splitPrelude t rest).2 with
        | [] => ([.invalid t],none)
        | u :: inner =>
          if u.kind == .leftBrace then
            match Prelude.keyframeSelectors? (splitPrelude t rest).1 with
            | none =>
              (.invalid t :: (splitFrames (dropGroup inner)).1, (splitFrames (dropGroup inner)).2)
            | some sels =>
              match (splitItems inner).2 with
              | none => ([.frame t sels u (splitItems inner).1 false],none)
              | some post =>
                (.frame t sels u (splitItems inner).1 true :: (splitFrames post).1,
                  (splitFrames post).2)
          else
            (.invalid t :: (splitFrames (u :: inner)).1,
              (splitFrames (u :: inner)).2) := by
  rw [splitFrames]
  split
  · rfl
  · by_cases hk : t.kind = .rightBrace
    · rw [dif_pos hk,if_pos (by simp [hk])]
    · rw [dif_neg hk,if_neg (by simpa using hk)]
      split
      · next hp => simp only [hp]
      · next u inner hp =>
          simp only [hp]
          by_cases hu : u.kind = .leftBrace
          · rw [dif_pos hu,if_pos (by simp [hu])]
            cases Prelude.keyframeSelectors? (splitPrelude t rest).1 with
            | none => rfl
            | some sels =>
              dsimp only
              split
              · next hi => rw [hi]
              · next post hi => rw [hi]
          · rw [dif_neg hu,if_neg (by simpa using hu)]

lemma parseFrames_round (d : Dialect) (opening t : Token) (rest : List Token) :
    Keyframe.parseBlock d opening (t :: rest) =
      (if t.kind == .whitespace || t.kind == .semicolon then Keyframe.parseBlock d opening rest
      else if t.kind == .rightBrace then return ([],rest)
      else match (splitPrelude t rest).2 with
        | [] => do
          d.recover (.parse .invalidKeyframe t.span)
          Keyframe.parseBlock d opening []
        | u :: inner =>
          if u.kind == .leftBrace then
            match Prelude.keyframeSelectors? (splitPrelude t rest).1 with
            | none => do
              d.recover (.parse .invalidKeyframe t.span)
              Keyframe.parseBlock d opening (dropGroup inner)
            | some sels => do
              let (declarations,post) ← parseBlock d u inner
              let (more,post) ← Keyframe.parseBlock d opening post
              return (⟨sels,declarations,d.location t⟩ :: more,post)
          else do
            d.recover (.parse .invalidKeyframe t.span)
            Keyframe.parseBlock d opening (u :: inner)) := by
  rw [parseFrames_eq,splitFrames_cons]
  split
  · rfl
  · split
    · rfl
    · cases (splitPrelude t rest).2 with
      | nil =>
        have hi := parseFrames_invalid d opening t []
        rw [splitFrames] at hi
        exact hi
      | cons u inner =>
        dsimp only
        split
        · cases Prelude.keyframeSelectors? (splitPrelude t rest).1 with
          | none => exact parseFrames_invalid d opening t (dropGroup inner)
          | some sels =>
            -- The declarations of a frame come before the frames behind it.
            have hb : parseBlock d u inner = (do
                let declarations ← parseItems d (splitItems inner).1
                match (splitItems inner).2 with
                | some post => return (declarations,post)
                | none => throw (.parse .unclosedBlock u.span)) := rfl
            dsimp only
            rw [hb]
            cases (splitItems inner).2 with
            | none =>
              dsimp only
              rw [parseFrames_cons,Keyframe.parseItem,bind_assoc,bind_assoc]; rfl
            | some post =>
              dsimp only
              rw [parseFrames_cons,Keyframe.parseItem,bind_assoc,bind_assoc]; rfl
        · exact parseFrames_invalid d opening t (u :: inner)

lemma splitPrelude_eq {pos brace : Nat} (ht : ts[pos]? = some t) (h : StopsAt ts isBrace pos brace) :
    splitPrelude t (ts.drop (pos + 1)) =
      ((ts.drop pos).take (brace - pos),ts.drop brace) := by
  rw [← h.split,drop_eq_cons ht,splitBefore,splitPrelude]
  simp

lemma simulates_keyframes (d : Dialect) (ts : List Token) (opening : Token) {pos : Nat} (hp : pos ≤ ts.length) :
    Simulates (Left ts (pos + 1)) (keyframes d ts opening pos)
      (Keyframe.parseBlock d opening (ts.drop pos)) := by
  induction hn : ts.length - pos using Nat.strongRecOn generalizing pos with
  | ind n ih =>
    rw [keyframes]
    obtain ⟨hd,hg,-⟩ | ⟨t,hd,hg,hlt⟩ := drop_cases ts pos
    · rw [hd,hg,parseFrames_nil]
      exact simulates_throw _
    · have hnx {behind : Nat} (hm : pos < behind ∧ behind ≤ ts.length) :
          Simulates (Left ts (pos + 1)) (keyframes d ts opening behind)
            (Keyframe.parseBlock d opening (ts.drop behind)) :=
        (ih (ts.length - behind) (by omega) hm.2 rfl).mono fun a b h => h.mono (by omega)
      have hst : pos < pos + 1 ∧ pos + 1 ≤ ts.length := ⟨Nat.lt_succ_self pos,hlt⟩
      have hsk {fault : Fault} {behind : Nat} (hm : pos < behind ∧ behind ≤ ts.length) : Simulates (Left ts (pos + 1)) (do
              lift (d.recover fault)
              onward ts.length pos behind fun _ => keyframes d ts opening behind)
            (do
              d.recover fault
              Keyframe.parseBlock d opening (ts.drop behind)) := by
        rw [onward_eq hm]
        exact simulates_lift_bind fun _ => hnx hm
      rw [hd,hg,parseFrames_round]
      dsimp only
      split
      · rw [onward_eq hst]
        exact hnx hst
      · split
        · exact simulates_pure ⟨rfl,Nat.le_refl _,hlt,rfl⟩
        · obtain ⟨brace,hbr,hs⟩ := findTopLevel_spec ts isBrace hp
          have hle := hs.le
          rw [hbr,pure_bind,slice_eq hle hs.le_length,splitPrelude_eq hg hs]
          dsimp only
          obtain ⟨hd',hg',he⟩ | ⟨u,hd',hg',hlt'⟩ := drop_cases ts brace
          · rw [hd',hg']
            dsimp only [Option.filter_none]
            rw [← hd']
            exact hsk ⟨by omega,hs.le_length⟩
          · rw [hd',hg']
            by_cases hu : (u.kind == .leftBrace)
            · obtain ⟨hm,hgr⟩ := skipComponent_spec hg'
              rw [if_pos (by rw [beq_iff_eq.mp hu]; rfl)] at hgr
              have hb : (some u).filter (fun u => u.kind == .leftBrace) = some u := Option.filter_some_pos hu
              rw [hb]
              dsimp only
              rw [if_pos hu,pure_bind,keyframeSelectors_eq,pure_bind]
              cases Prelude.keyframeSelectors? ((ts.drop pos).take (brace - pos)) with
              | none =>
                dsimp only
                rw [← hgr]
                exact hsk ⟨by omega,hm.2⟩
              | some sels =>
                refine simulates_bind_left (simulates_declarationList d ts u hlt') fun ds stop hsp => ?_
                have hm : pos < stop ∧ stop ≤ ts.length := ⟨by omega,hsp.2⟩
                dsimp only
                rw [onward_eq hm]
                refine simulates_bind_left (hnx hm) fun more behind hbh => ?_
                exact simulates_pure ⟨rfl,hbh.1,hbh.2,rfl⟩
            · -- The cursor is not yet at the brace, for its token is none.
              have hbf : pos < brace := by
                refine hs.lt_of_imp hg hg' ?_
                rintro rfl
                simp_all [isBrace]
              have hb : (some u).filter (fun u => u.kind == .leftBrace) = none :=
                Option.filter_some_neg (by simpa using hu)
              rw [hb]
              dsimp only
              rw [if_neg hu,← hd']
              exact hsk ⟨hbf,hs.le_length⟩

end Css.Cursor
