import Css.Proofs.Cursor.Group
import Css.Proofs.Value.Sources

/-!
# Values under a cursor

The parser of values as one that moves a cursor over the tokens.
-/
namespace Css.Cursor
open List CheckM Value

def fallbackSlices (arguments : Value) : CheckM (Value × Option Value) :=
  match arguments.findIdx? Component.isComma with
  | none => return (arguments,none)
  | some comma => do
    let head ← slice arguments 0 comma
    return (head,some (trim (← slice arguments (comma + 1) arguments.length)))

def reference (dashed : Bool) (opening : Span) (arguments : Value) : CheckM (Option Component) := do
  let (head,fallback) ← fallbackSlices arguments
  match head.filter fun c => !c.isWhitespace with
  | .ident name :: rest =>
    if Text.startsWith name "--" then
      match rest with
      | [] => return some (.reference name none fallback)
      | c :: source =>
        if dashed && c.isKeyword "from" then
          match nameSource? source with
          | some source => return some (.reference name (some source) fallback)
          | none => throw ⟨.modules (.invalidReference name),opening⟩
        else return none
    else return none
  | _ => return none

def functionCall (file : SourceFile) (dashed : Bool) (name : String) (opening : Span)
    (arguments : Value) : CheckM Component := do
  if name == "url" then
    match arguments with
    | [.string address] => return .url address (file.location opening)
    | _ => return .function name arguments
  else if name == "var" then
    match ← reference dashed opening arguments with
    | some c => return c
    | none => return .function name arguments
  else
    match Color.ofFunction? name arguments with
    | some c => return .color c
    | none => return .function name arguments

def closedFrame (file : SourceFile) (dashed : Bool) (frame : Frame) (contents : Value) : CheckM Component :=
  match frame.opening.kind with
  | .function => functionCall file dashed frame.opening.keyword frame.opening.span contents
  | .leftBracket => return .block .square contents
  | .leftBrace => return .block .brace contents
  | _ => return .block .paren contents

/-- The tokens from `next` on that may be parts of a range of code points, and the index behind them. -/
def rangePartsFrom (tokens : List Token) (stop next : Nat) : CheckM (List Token × Nat) :=
  match tokens[next]? with
  | none => return ([],next)
  | some t =>
    if t.span.start = stop && isRangePart t then
      onward tokens.length next (next + 1) fun _ => do
        let (parts,behind) ← rangePartsFrom tokens t.span.stop (next + 1)
        return (t :: parts,behind)
    else return ([],next)
termination_by tokens.length - next
decreasing_by omega

def unicodeRange (tokens : List Token) (u : Token) (next : Nat) : CheckM (Option (List Token × Nat)) := do
  if Text.lower u.text == "u" then
    let (parts,behind) ← rangePartsFrom tokens u.span.stop next
    if isRangeText (parts.flatMap fun t => t.text.toList) then return some (parts,behind)
    else return none
  else return none

def separateAfter (ended : Option Nat) (start : Nat) (xs : List Component) : List Component :=
  if ended.any (· < start) && !xs.isEmpty then pushBlank xs else xs

def pushNumericAfter (ended : Option Nat) (t : Token) (c : Component) (xs : List Component) : List Component :=
  if ended == some t.span.start && t.text.toList.head? == some '+' && xs.head?.any runsOn then
    c :: .delim '+' :: xs
  else c :: xs

/-- The components from `pos` on: `stack` holds the open brackets, `items` the components of the innermost
list, last first, and `ended` is where the last token ended, if there is one in the list. -/
def valueFrom (file : SourceFile) (dashed : Bool) (tokens : List Token) (stack : List Frame)
    (xs : List Component) (ended : Option Nat) (pos : Nat) : CheckM Value :=
  match tokens[pos]? with
  | none =>
    match stack with
    | [] => return trim xs.reverse
    | frame :: _ => throw (.parse .unclosedBlock frame.opening.span)
  | some t =>
    let xs := separateAfter ended t.span.start xs
    let next (stack : List Frame) (xs : List Component) (behind : Nat) : CheckM Value :=
      onward tokens.length pos behind fun _ => do
        let last ← pred behind
        valueFrom file dashed tokens stack xs (tokens[last]?.map fun u => u.span.stop) behind
    match t.kind with
    | .whitespace => next stack (pushBlank xs) (pos + 1)
    | .comment => next stack xs (pos + 1)
    | .ident => do
      match ← unicodeRange tokens t (pos + 1) with
      | some (parts,behind) =>
        next stack (.unicodeRange (String.join (t.text :: parts.map Token.text)) :: xs) behind
      | none => next stack (.ident t.name :: xs) (pos + 1)
    | .atKeyword => next stack (.atKeyword t.name :: xs) (pos + 1)
    | .hash | .idHash => next stack (hashComponent t.name :: xs) (pos + 1)
    | .string => next stack (.string t.stringValue :: xs) (pos + 1)
    | .badString => throw (.parse .badString t.span)
    | .url => next stack (.url t.urlValue (file.location t.span) :: xs) (pos + 1)
    | .badUrl => throw (.parse .badUrl t.span)
    | .number => next stack (pushNumericAfter ended t (.number t.number) xs) (pos + 1)
    | .percentage => next stack (pushNumericAfter ended t (.percentage t.number) xs) (pos + 1)
    | .dimension => next stack (pushNumericAfter ended t (.dimension t.number t.unit) xs) (pos + 1)
    | .delim =>
      match t.delim? with
      | some c => next stack (.delim c :: xs) (pos + 1)
      | none => next stack xs (pos + 1)
    | .colon => next stack (.colon :: xs) (pos + 1)
    | .semicolon => next stack (.semicolon :: xs) (pos + 1)
    | .comma => next stack (.comma :: xs) (pos + 1)
    | .function | .leftParen | .leftBracket | .leftBrace =>
      onward tokens.length pos (pos + 1) fun _ =>
        valueFrom file dashed tokens (⟨t,xs⟩ :: stack) [] none (pos + 1)
    | .rightParen | .rightBracket | .rightBrace =>
      match stack with
      | [] => throw (.parse (.unexpectedToken t.text) t.span)
      | frame :: stack => do
        if frame.opening.kind.closing? == some t.kind then
          let c ← closedFrame file dashed frame (trim xs.reverse)
          next stack (c :: frame.before) (pos + 1)
        else throw (.parse (.unexpectedToken t.text) t.span)
    | .cdo | .cdc | .eof => throw (.parse (.unexpectedToken t.text) t.span)
termination_by tokens.length - pos
decreasing_by all_goals omega

def value (file : SourceFile) (dashed : Bool) (tokens : List Token) : CheckM Value :=
  valueFrom file dashed tokens [] [] none 0

lemma splitFallback_eq (args : Value) : splitFallback args = match args.findIdx? Component.isComma with
      | none => (args,none)
      | some comma => (args.take comma,some (trim (args.drop (comma + 1)))) := by
  induction args with
  | nil => rfl
  | cons c rest ih =>
    rw [splitFallback,findIdx?_cons]
    split
    · rfl
    · rw [ih]
      cases rest.findIdx? Component.isComma <;> rfl

lemma fallbackSlices_eq (args : Value) : fallbackSlices args = pure (splitFallback args) := by
  rw [fallbackSlices,splitFallback_eq]
  cases h : args.findIdx? Component.isComma with
  | none => rfl
  | some comma =>
    have hlt : comma < args.length := (findIdx?_eq_some_iff_getElem.mp h).1
    simp [slice_eq (Nat.zero_le _) (Nat.le_of_lt hlt),slice_eq hlt (Nat.le_refl _),← length_drop]

lemma reads_reference (dashed : Bool) (opening : Span) (args : Value) :
    Reads Eq (reference dashed opening args) (reference? dashed opening args) := by
  rw [reference,reference?,fallbackSlices_eq,pure_bind]
  generalize splitFallback args = ps
  obtain ⟨head,fb⟩ := ps
  dsimp only
  cases head.filter fun c => !c.isWhitespace with
  | nil => exact reads_pure rfl
  | cons c rest =>
    cases c with
    | ident name =>
      dsimp only
      split
      · cases rest with
        | nil => exact reads_pure rfl
        | cons c src =>
          dsimp only
          split
          · cases nameSource? src with
            | none => exact reads_throw _
            | some src => exact reads_pure rfl
          · exact reads_pure rfl
      · exact reads_pure rfl
    | _ => exact reads_pure rfl

lemma reads_functionCall (file : SourceFile) (dashed : Bool) (name : String) (opening : Span) (args : Value) :
    Reads Eq (functionCall file dashed name opening args) (call file dashed name opening args) := by
  unfold functionCall call
  split
  · obtain _ | ⟨c,_ | ⟨_,_⟩⟩ := args
    · exact reads_pure rfl
    · cases c <;> exact reads_pure rfl
    · cases c <;> exact reads_pure rfl
  · split
    · refine (reads_reference dashed opening args).elim_eq reads_throw fun found _ => ?_
      cases found <;> exact reads_pure rfl
    · cases Color.ofFunction? name args <;> exact reads_pure rfl

lemma reads_closedFrame (file : SourceFile) (dashed : Bool) (frame : Frame) (contents : Value) :
    Reads Eq (closedFrame file dashed frame contents) (frame.close file dashed contents) := by
  rw [closedFrame,Frame.close]
  cases frame.opening.kind <;> first
    | exact reads_functionCall file dashed _ _ contents
    | exact reads_pure rfl

lemma rangePartsFrom_eq (ts : List Token) (stop : Nat) {next : Nat} (hnx : next ≤ ts.length) :
    rangePartsFrom ts stop next = pure (rangeParts stop (ts.drop next),
        next + (rangeParts stop (ts.drop next)).length) := by
  induction hn : ts.length - next using Nat.strongRecOn generalizing stop next with
  | ind n ih =>
    rw [rangePartsFrom]
    obtain ⟨hd,hg,-⟩ | ⟨t,hd,hg,hlt⟩ := drop_cases ts next
    · rw [hd,hg]; rfl
    · rw [hd,hg,rangeParts]
      dsimp only
      split
      · have hm : next < next + 1 ∧ next + 1 ≤ ts.length := ⟨Nat.lt_succ_self next,hlt⟩
        rw [onward_eq hm,ih (ts.length - (next + 1)) (by omega) t.span.stop hlt rfl,pure_bind]
        simp only [length_cons,Nat.succ_eq_add_one,Nat.add_assoc,Nat.add_comm 1]
      · rfl

lemma last_of_isPrefix {ts ps : List Token} {t : Token} {pos : Nat}
    (ht : ts[pos]? = some t) (hlt : pos < ts.length) (h : ps <+: ts.drop (pos + 1)) :
    pos.succ + ps.length ≤ ts.length ∧ ts[pos.succ + ps.length - 1]? = some (ps.getLast?.getD t) := by
  have hl := h.length_le
  rw [length_drop] at hl
  refine ⟨by omega,?_⟩
  obtain rfl | ⟨pre,u,rfl⟩ := eq_nil_or_concat ps
  · simpa using ht
  · obtain ⟨more,hm⟩ := h
    have hu : (ts.drop (pos + 1))[pre.length]? = some u := by
      rw [← hm]
      simp
    rw [getElem?_drop] at hu
    simpa using hu

lemma unicodeRange_eq (ts : List Token) (u : Token) {next : Nat} (hn : next ≤ ts.length) : unicodeRange ts u next =
      pure ((range? u (ts.drop next)).map fun ps => (ps,next + ps.length)) := by
  rw [unicodeRange,range?]
  split
  · rw [rangePartsFrom_eq ts u.span.stop hn,pure_bind]
    dsimp only
    split <;> rfl
  · rfl

variable {ended : Option Nat} {stop : Nat} {xs : List Component}

lemma separateAfter_eq {start : Nat} (h : xs = [] ∨ ended = some stop) :
    separateAfter ended start xs = separate stop start xs := by
  obtain rfl | rfl := h
  · simp [separateAfter,separate]
  · simp [separateAfter,separate]

lemma separate_eq_nil {start : Nat} (h : xs = []) : separate stop start xs = [] := by
  simp [separate,h]

lemma pushNumericAfter_eq (h : xs = [] ∨ ended = some stop) (t : Token) (c : Component) :
    pushNumericAfter ended t c xs = pushNumeric stop t c xs := by
  obtain rfl | rfl := h
  · simp [pushNumericAfter,pushNumeric]
  · by_cases hs : t.span.start = stop
    · simp [pushNumericAfter,pushNumeric,hs]
    · simp [pushNumericAfter,pushNumeric,hs,Ne.symm hs]

lemma reads_valueFrom (file : SourceFile) (dashed : Bool) (ts : List Token)
    (stk : List Frame) {pos : Nat} (he : xs = [] ∨ ended = some stop) (hp : pos ≤ ts.length) :
    Reads Eq (valueFrom file dashed ts stk xs ended pos) (parseFrom file dashed 0 stk xs stop (ts.drop pos)) := by
  induction hn : ts.length - pos using Nat.strongRecOn generalizing stk xs ended stop pos with
  | ind n ih =>
    unfold valueFrom
    obtain ⟨hd,hg,-⟩ | ⟨t,hd,hg,hlt⟩ := drop_cases ts pos
    · rw [hd,hg]
      cases stk with
      | nil => exact reads_pure rfl
      | cons frame stk => exact reads_throw _
    · have hi : separate stop t.span.start xs = [] ∨ ended = some stop := he.imp_left separate_eq_nil
      have hnx (stk : List Frame) (xs : List Component) {behind : Nat} {u : Token}
          (hm : pos < behind ∧ behind ≤ ts.length) (hu : ts[behind - 1]? = some u) :
          Reads Eq (onward ts.length pos behind fun _ => do
              let last ← pred behind
              valueFrom file dashed ts stk xs (ts[last]?.map fun u => u.span.stop) behind)
            (parseFrom file dashed 0 stk xs u.span.stop (ts.drop behind)) := by
        rw [onward_eq hm,pred_eq (by omega),pure_bind,hu]
        exact ih (ts.length - behind) (by omega) stk (.inr rfl) hm.2 rfl
      have hs (stk : List Frame) (xs : List Component) := hnx stk xs ⟨Nat.lt_succ_self pos,hlt⟩ hg
      have ho (frame : Frame) : Reads Eq (onward ts.length pos (pos + 1) fun _ =>
              valueFrom file dashed ts (frame :: stk) [] none (pos + 1))
            (parseFrom file dashed 0 (frame :: stk) [] t.span.stop (ts.drop (pos + 1))) := by
        rw [onward_eq ⟨Nat.lt_succ_self pos,hlt⟩]
        exact ih (ts.length - (pos + 1)) (by omega) (frame :: stk) (.inl rfl) hlt rfl
      rw [hd,hg,parseFrom.eq_def]
      dsimp only
      rw [separateAfter_eq he]
      simp only [pushNumericAfter_eq hi]
      cases hk : t.kind with
      | ident =>
        rw [unicodeRange_eq ts t hlt,pure_bind]
        cases hr : range? t (ts.drop (pos + 1)) with
        | none => exact hs stk _
        | some ps =>
          obtain ⟨hle,hl⟩ := last_of_isPrefix hg hlt (prefix_of_range? hr)
          dsimp only [Option.map_some]
          rw [parseFrom_skip,drop_drop]
          exact hnx stk _ ⟨by omega,hle⟩ hl
      | delim =>
        dsimp only
        cases t.delim? with
        | none => exact hs stk _
        | some c => exact hs stk _
      | function | leftParen | leftBracket | leftBrace => exact ho _
      | rightParen | rightBracket | rightBrace =>
        cases stk with
        | nil => exact reads_throw _
        | cons frame stk =>
          dsimp only
          split
          · exact (reads_closedFrame file dashed frame _).elim_eq reads_throw fun c _ => hs stk _
          · exact reads_throw _
      | badString | badUrl | cdo | cdc | eof => exact reads_throw _
      | _ => exact hs stk _

lemma reads_value (file : SourceFile) (dashed : Bool) (ts : List Token) :
    Reads Eq (value file dashed ts) (Value.parse file dashed ts) :=
  reads_valueFrom file dashed ts [] (.inl rfl) (Nat.zero_le _)

end Css.Cursor
