import Css.Proofs.Token.Scanning
import Css.Proofs.Value.Steps

/-!
# Values at other places

Whether tokens are read as a value depends neither on where they stand nor on the components that stand
before them.
-/
namespace Css
open List Token Component

def Token.shift (d : Nat) (t : Token) : Token := { t with span := ⟨t.span.start + d,t.span.stop + d⟩ }

lemma Token.scanFrom_add (offset d : Nat) (s : List Char) :
    scanFrom (offset + d) s = (scanFrom offset s).map (shift d) := by
  induction s using Lexer.next_induction generalizing offset with
  | nil =>
    rw [scanFrom_nil,scanFrom_nil]; rfl
  | step s hs ih =>
    rw [scanFrom_eq_cons _ hs,scanFrom_eq_cons offset hs,map_cons,← ih]
    simp only [shift,Scanner.token,Nat.add_right_comm]

def Token.rulesFrom (offset : Nat) (s : List Char) : List Token := (scanFrom offset s).filter fun t => t.kind != .comment

lemma Token.rulesFrom_add (offset d : Nat) (s : List Char) :
    rulesFrom (offset + d) s = (rulesFrom offset s).map (shift d) := by
  rw [rulesFrom,scanFrom_add,filter_map]; rfl

namespace Value

lemma rangeParts_shift (d stop : Nat) (ts : List Token) :
    rangeParts (stop + d) (ts.map (shift d)) = (rangeParts stop ts).map (shift d) := by
  induction ts generalizing stop with
  | nil => rfl
  | cons t rest ih =>
    have hs : ((t.shift d).span.start = stop + d) = (t.span.start = stop) := propext Nat.add_right_cancel_iff
    rw [map_cons,rangeParts,rangeParts]
    simp only [hs]
    change (if (decide (t.span.start = stop) && isRangePart t) = true then
      t.shift d :: rangeParts (t.span.stop + d) (rest.map (shift d)) else []) = _
    rw [ih]
    split <;> rfl

lemma leafRange?_shift (d : Nat) (t : Token) (rest : List Token) :
    leafRange? (t.shift d) (rest.map (shift d)) = (leafRange? t rest).map (List.map (shift d)) := by
  have hr : range? (t.shift d) (rest.map (shift d)) = (range? t rest).map (List.map (shift d)) := by
    have ht (ps : List Token) : (ps.map (shift d)).flatMap (fun t => t.text.toList) =
        ps.flatMap fun t => t.text.toList := flatMap_map _ _ ps
    have hp : rangeParts (t.shift d).span.stop (rest.map (shift d)) =
        (rangeParts t.span.stop rest).map (shift d) := rangeParts_shift d _ rest
    rw [range?,range?,hp]
    dsimp only
    rw [ht]
    change (if (Text.lower t.text == "u") = true then _ else _) = _
    split
    · split <;> rfl
    · rfl
  rw [leafRange?,leafRange?,hr]
  change (if t.kind = .ident then _ else _) = _
  split <;> rfl

lemma endOfTokens_shift (d : Nat) (t : Token) (ps : List Token) :
    endOfTokens (t.shift d) (ps.map (shift d)) = endOfTokens t ps + d := by
  rw [endOfTokens,endOfTokens,getLast?_map]
  cases ps.getLast? <;> rfl

end Value

def Component.outline : Component → Component
  | color _ | url .. | function .. | block .. | reference .. => .colon
  | c => c

namespace Value

lemma isWhitespace_outline (c : Component) : c.outline.isWhitespace = c.isWhitespace := by
  cases c <;> rfl

lemma isComma_outline (c : Component) : c.outline.isComma = c.isComma := by cases c <;> rfl

lemma isKeyword_outline (keyword : String) (c : Component) : c.outline.isKeyword keyword = c.isKeyword keyword := by
  cases c <;> rfl

lemma runsOn_outline (c : Component) : runsOn c.outline = runsOn c := by cases c <;> rfl

lemma IsMade.outline {contents : Value} {c : Component} (h : IsMade contents c) : c.outline = .colon := by
  cases h <;> rfl

lemma map_outline_pushBlank (items : List Component) : (pushBlank items).map outline = pushBlank (items.map outline) := by
  cases items with
  | nil => rfl
  | cons c items => cases c <;> rfl

lemma map_outline_separate (stop start : Nat) (items : List Component) :
    (separate stop start items).map outline = separate stop start (items.map outline) := by
  rw [separate,separate,isEmpty_map]
  split
  · exact map_outline_pushBlank items
  · rfl

lemma map_outline_pushNumeric (stop : Nat) (t : Token) (c : Component) (items : List Component) :
    (pushNumeric stop t c items).map outline = pushNumeric stop t c.outline (items.map outline) := by
  have hh : (items.map outline).head?.any runsOn = items.head?.any runsOn := by
    cases items with
    | nil => rfl
    | cons d items => exact runsOn_outline d
  rw [pushNumeric,pushNumeric,hh]
  split <;> rfl

lemma map_outline_trim (xs : Value) : (trim xs).map outline = trim (xs.map outline) := by
  have hp : isWhitespace ∘ outline = isWhitespace :=
    funext isWhitespace_outline
  rw [trim,trim,dropWhile_map,hp,← map_reverse,dropWhile_map,hp,map_reverse]

lemma map_outline_splitFallback (xs : Value) : (splitFallback xs).1.map outline = (splitFallback (xs.map outline)).1 := by
  induction xs with
  | nil => rfl
  | cons c xs ih =>
    rw [map_cons,splitFallback,splitFallback,isComma_outline]
    split
    · rfl
    · exact congrArg (c.outline :: ·) ih

lemma separate_add (d stop start : Nat) (items : List Component) :
    separate (stop + d) (start + d) items = separate stop start items := by
  rw [separate,separate]
  simp only [Nat.add_lt_add_iff_right]

lemma pushNumeric_shift (d stop : Nat) (t : Token) (c : Component) (items : List Component) :
    pushNumeric (stop + d) (t.shift d) c items = pushNumeric stop t c items := by
  have hs : ((t.shift d).span.start = stop + d) = (t.span.start = stop) := propext Nat.add_right_cancel_iff
  rw [pushNumeric,pushNumeric]
  simp only [hs]
  rfl

lemma map_outline_leaf? (file file' : SourceFile) (d : Nat) (t : Token) (range : Option (List Token)) :
    (leaf? file' (t.shift d) (range.map (List.map (shift d)))).map outline = (leaf? file t range).map outline := by
  have ht (ps : List Token) : (ps.map (shift d)).map Token.text = ps.map Token.text := map_map
  have hk : (t.shift d).kind = t.kind := rfl
  rw [leaf?.eq_def,leaf?.eq_def,hk]
  cases t.kind with
  | ident =>
    cases range with
    | none => rfl
    | some ps =>
      dsimp only [Option.map_some]
      rw [ht]; rfl
  | _ => rfl

lemma map_outline_addLeaf (file file' : SourceFile) (d stop : Nat) (t : Token)
    (range : Option (List Token)) {items items' : List Component}
    (h : items'.map outline = items.map outline) :
    (addLeaf file' (stop + d) (t.shift d) (range.map (List.map (shift d))) items').map outline =
      (addLeaf file stop t range items).map outline := by
  have hs : (separate (stop + d) (t.shift d).span.start items').map outline =
      (separate stop t.span.start items).map outline := by
    rw [map_outline_separate,map_outline_separate,h]
    exact separate_add d stop _ _
  have hk : (t.shift d).kind = t.kind := rfl
  have hl := map_outline_leaf? file file' d t range
  rw [addLeaf,addLeaf,hk]
  split
  · rw [map_outline_pushBlank,map_outline_pushBlank,hs]
  · cases hc : leaf? file t range with
    | none =>
      rw [hc] at hl
      rw [Option.map_eq_none_iff.mp hl]
      exact hs
    | some c =>
      rw [hc] at hl
      obtain ⟨c',hc',ho⟩ := Option.map_eq_some_iff.mp hl
      rw [hc']
      dsimp only
      split
      · rw [map_outline_pushNumeric,map_outline_pushNumeric,pushNumeric_shift,ho,hs]
      · rw [map_cons,map_cons,ho,hs]

lemma isSome_nameSource? (src : List Component) : (nameSource? (src.map outline)).isSome = (nameSource? src).isSome := by
  rcases src with _ | ⟨c,_ | ⟨d,src⟩⟩
  · rfl
  · cases c <;> rfl
  · cases c <;> rfl

/-- Whether a call of a variable is a fault depends on the outline of its arguments. -/
lemma isOk_reference? (dashed : Bool) (opening opening' : Span) (args : Value) :
    (reference? dashed opening' (args.map Component.outline)).isOk = (reference? dashed opening args).isOk := by
  have hh := map_outline_splitFallback args
  rw [reference?,reference?]
  generalize splitFallback (args.map Component.outline) = ps' at hh ⊢
  generalize splitFallback args = ps at hh ⊢
  obtain ⟨head,fb⟩ := ps
  obtain ⟨head',fb'⟩ := ps'
  dsimp only at hh ⊢
  have hb : (fun c : Component => !c.isWhitespace) ∘ Component.outline =
      fun c => !c.isWhitespace := funext fun c => congrArg (!·) (isWhitespace_outline c)
  rw [← hh,filter_map,hb]
  cases head.filter fun c => !c.isWhitespace with
  | nil => rfl
  | cons c rest =>
    cases c with
    | ident name =>
      have hi : Component.outline (.ident name) = .ident name := rfl
      rw [map_cons,hi]
      dsimp only
      split
      · cases rest with
        | nil => rfl
        | cons c src =>
          rw [map_cons]
          dsimp only
          rw [isKeyword_outline]
          split
          · have hsr := isSome_nameSource? src
            cases hs : nameSource? src with
            | none =>
              rw [hs] at hsr
              rw [Option.isNone_iff_eq_none.mp (Option.isSome_eq_false_iff.mp hsr)]; rfl
            | some src' =>
              rw [hs] at hsr
              obtain ⟨src'',hs'⟩ := Option.isSome_iff_exists.mp hsr
              rw [hs']; rfl
          · rfl
      · rfl
    | _ => rfl

lemma isOk_close_shift (file file' : SourceFile) (dashed : Bool) (d : Nat) (opening : Token)
    (pre before' : List Component) {contents contents' : Value}
    (h : contents'.map outline = contents.map outline) :
    (Frame.close file' dashed ⟨opening.shift d,before'⟩ contents').isOk =
      (Frame.close file dashed ⟨opening,pre⟩ contents).isOk := by
  have hr : (reference? dashed (opening.shift d).span contents').isOk =
      (reference? dashed opening.span contents).isOk := by
    rw [← isOk_reference? dashed _ opening.span,h,isOk_reference?]
  rw [isOk_close,isOk_close,hr]; rfl

lemma isOk_bind_congr {α β ε : Type} {x y : Except ε α} {f g : α → Except ε β}
    (h : y.isOk = x.isOk) (hf : ∀ a b, x = .ok a → y = .ok b → (g b).isOk = (f a).isOk) :
    (y.bind g).isOk = (x.bind f).isOk := by
  cases x with
  | error e =>
    cases y with
    | error e' => rfl
    | ok b => cases h
  | ok a =>
    cases y with
    | error e' => cases h
    | ok b => exact hf a b rfl rfl

/-- Two states over the same tokens: the same brackets are open, and all lists but the outermost ones
have the same outline. -/
inductive InStep (d : Nat) : List Frame → List Component → List Frame → List Component → Prop
  | outer (items items' : List Component) : InStep d [] items [] items'
  | inner {opening : Token} {stack stack' : List Frame} {before before' items items' : List Component}
      (hitems : items'.map Component.outline = items.map Component.outline)
      (h : InStep d stack before stack' before') :
      InStep d (⟨opening,before⟩ :: stack) items (⟨opening.shift d,before'⟩ :: stack') items'

namespace InStep
variable {d : Nat} {stack stack' : List Frame} {items items' new new' : List Component}

lemma replace (h : InStep d stack items stack' items') (hn : stack ≠ [] → items'.map outline = items.map outline →
      new'.map outline = new.map outline) : InStep d stack new stack' new' := by
  cases h with
  | outer => exact .outer new new'
  | inner hi h => exact .inner (hn (cons_ne_nil _ _) hi) h

lemma closing? (h : InStep d stack items stack' items') : stack'.map (fun frame => frame.opening.kind.closing?) =
      stack.map fun frame => frame.opening.kind.closing? := by
  induction h with
  | outer => rfl
  | inner _ _ ih => exact congrArg (_ :: ·) ih

end InStep

variable {dashed : Bool}

lemma isOk_parseFrom_shift (file file' : SourceFile) {d : Nat} {ts : List Token} {skip : Nat}
    {stack stack' : List Frame} {items items' : List Component} {stop stop' : Nat}
    (h : InStep d stack items stack' items') (hs : stack ≠ [] → stop' = stop + d) :
    (parseFrom file' dashed skip stack' items' stop' (ts.map (shift d))).isOk =
      (parseFrom file dashed skip stack items stop ts).isOk := by
  induction ts generalizing skip stack stack' items items' stop stop' with
  | nil => cases h <;> cases skip <;> rfl
  | cons t rest ih =>
    rw [map_cons]
    cases skip with
    | succ skip =>
      rw [parseFrom,parseFrom]
      exact ih h hs
    | zero =>
      have hsp (hne : stack ≠ []) (hi : items'.map outline = items.map outline) :
          (separate stop' (t.shift d).span.start items').map outline =
            (separate stop t.span.start items).map outline := by
        rw [hs hne,map_outline_separate,map_outline_separate,hi]
        exact separate_add d stop _ _
      rcases kind_cases t.kind with hb | ⟨hb,hl | ho | hcl⟩
      · rw [isOk_parseFrom_barred hb,isOk_parseFrom_barred (t := t.shift d) hb]
      · have hp : ((leafRange? t rest).map (List.map (shift d))).getD [] =
            ((leafRange? t rest).getD []).map (shift d) := by
          cases leafRange? t rest <;> rfl
        rw [parseFrom_leaf hl hb,parseFrom_leaf (t := t.shift d) hl hb,leafRange?_shift,hp,length_map]
        refine ih (h.replace fun hne hi => ?_) fun _ => endOfTokens_shift d t _
        rw [hs hne]
        exact map_outline_addLeaf file file' d stop t _ hi
      · rw [parseFrom_opening ho,parseFrom_opening (t := t.shift d) ho]
        exact ih (.inner rfl (h.replace hsp)) fun _ => rfl
      · by_cases hm : (stack.map fun frame => frame.opening.kind.closing?).head? = some (some t.kind)
        · cases h with
          | outer => cases hm
          | @inner opening stack stack' pre before' _ _ hi hbl =>
            have hd : opening.kind.closing? = some t.kind := Option.some.inj hm
            have hcn : (trim (separate stop' (t.shift d).span.start items').reverse).map outline =
                (trim (separate stop t.span.start items).reverse).map outline := by
              rw [map_outline_trim,map_outline_trim,map_reverse,map_reverse,hsp (cons_ne_nil _ _) hi]
            have hce := isOk_close_shift file file' dashed d opening pre before' hcn
            rw [parseFrom_closing hcl hd,parseFrom_closing (t := t.shift d) hcl hd]
            exact isOk_bind_congr hce fun c c' hc hc' => ih (hbl.replace fun _ hbf => by
              rw [map_cons,map_cons,(isMade_of_close hc).outline,(isMade_of_close hc').outline,hbf]) fun _ => rfl
        · have hm' := h.closing? ▸ hm
          rw [isOk_parseFrom_closing hcl hm,isOk_parseFrom_closing (t := t.shift d) hcl hm']

/-- A text is read as a value behind whatever components it stands, if it is read at all. -/
lemma isOk_parseFrom_rulesFrom (file file' : SourceFile) (items items' : List Component)
    (stop stop' offset offset' : Nat) (s : List Char) :
    (parseFrom file' dashed 0 [] items' stop' (rulesFrom offset' s)).isOk =
      (parseFrom file dashed 0 [] items stop (rulesFrom offset s)).isOk := by
  -- Both runs are in step with the one that stands at the start of its source.
  have hs (g : SourceFile) (xs : List Component) (n d : Nat) : (parseFrom g dashed 0 [] xs n (rulesFrom d s)).isOk =
        (parseFrom file dashed 0 [] [] 0 (rulesFrom 0 s)).isOk := by
    have hsh := rulesFrom_add 0 d s
    rw [Nat.zero_add] at hsh
    rw [hsh]
    exact isOk_parseFrom_shift file g (.outer [] xs) fun hne => absurd rfl hne
  rw [hs file' items',hs file items]

end Value
end Css
