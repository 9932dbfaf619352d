import Css.Proofs.Token.Reading
import Css.Proofs.Token.Tiles
import Css.Token.Group
import Mathlib.Tactic.Lemma

/-!
# What a text is cut into

The parsers look at the kinds and the texts of tokens only, which do not depend on where a text stands.
-/
namespace Css.Token
open List Bool

def Kind.opensParen : Kind → Bool
  | function | leftParen | leftBracket => true
  | _ => false

def Kind.closesParen : Kind → Bool
  | rightParen | rightBracket => true
  | _ => false

def Kind.isFlat (kind : Kind) : Bool := !kind.opens && !kind.closes && kind != .comment

/-- Kinds of tokens in which every bracket is closed, with no comments between them and, if they stand
outside of brackets, no commas. -/
inductive Balanced : Bool → List Kind → Prop
  | nil {isOutside : Bool} : Balanced isOutside []
  | flat {isOutside : Bool} {kind : Kind} {kinds : List Kind} (hflat : kind.isFlat = true)
      (hcomma : isOutside = true → kind ≠ .comma) (h : Balanced isOutside kinds) :
      Balanced isOutside (kind :: kinds)
  | group {isOutside : Bool} {opening closing : Kind} {inner kinds : List Kind}
      (hopening : opening.opensParen = true) (hclosing : closing.closesParen = true)
      (hinner : Balanced false inner) (h : Balanced isOutside kinds) :
      Balanced isOutside (opening :: inner ++ closing :: kinds)

namespace Balanced
variable {isOutside : Bool} {kinds : List Kind}

lemma append {kinds' : List Kind} (h : Balanced isOutside kinds) (h' : Balanced isOutside kinds') :
    Balanced isOutside (kinds ++ kinds') := by
  induction h with
  | nil => exact h'
  | flat hf hc _ ih => exact .flat hf hc (ih h')
  | group ho hcl hi _ _ ih =>
    rw [append_assoc]
    exact .group ho hcl hi (ih h')

lemma inside (h : Balanced isOutside kinds) : Balanced false kinds := by
  induction h with
  | nil => exact .nil
  | flat hf _ _ ih => exact .flat hf (fun hfl => absurd hfl false_ne_true) ih
  | group ho hc hi _ _ ih => exact .group ho hc hi ih

lemma ne_comment (h : Balanced isOutside kinds) : ∀ kind ∈ kinds, kind ≠ .comment := by
  induction h with
  | nil =>
    intro kind hk
    cases hk
  | flat hf _ _ ih =>
    intro kind hk
    rcases mem_cons.mp hk with rfl | hk
    · rintro rfl
      cases hf
    · exact ih kind hk
  | group ho hc _ _ ihinner ih =>
    intro kind hk
    rw [cons_append,mem_cons,mem_append,mem_cons] at hk
    rcases hk with rfl | hk | rfl | hk
    · rintro rfl
      cases ho
    · exact ihinner kind hk
    · rintro rfl
      cases hc
    · exact ih kind hk

lemma of_flat (h : kinds.all (fun kind => kind.isFlat && kind != .comma)) : Balanced true kinds := by
  induction kinds with
  | nil => exact .nil
  | cons kind kinds ih =>
    rw [all_cons,and_eq_true,and_eq_true,bne_iff_ne] at h
    exact .flat h.1.1 (fun _ => h.1.2) (ih h.2)

end Balanced

variable {ts rest : List Token} {t : Token} {depth : Nat}

lemma exists_group_of_map {opening closing : Kind} {inner kinds : List Kind}
    (h : ts.map kind = opening :: inner ++ closing :: kinds) :
    ∃ t part u post, ts = t :: part ++ u :: post ∧ t.kind = opening ∧ part.map kind = inner ∧
      u.kind = closing ∧ post.map kind = kinds := by
  obtain ⟨first,second,rfl,hf,hs⟩ := map_eq_append_iff.mp h
  obtain ⟨t,part,rfl,ht,hp⟩ := map_eq_cons_iff.mp hf
  obtain ⟨u,post,rfl,hu,ha⟩ := map_eq_cons_iff.mp hs
  exact ⟨t,part,u,post,rfl,ht,hp,hu,ha⟩

lemma splitParens_opening (h : t.kind.opensParen) (depth : Nat) (rest : List Token) :
    splitParens depth (t :: rest) = (splitParens (depth + 1) rest).map fun p => (t :: p.1,p.2) := by
  rw [splitParens]
  cases hk : t.kind <;> first | rfl | (rw [hk] at h; cases h)

lemma splitParens_closing (h : t.kind.closesParen) (depth : Nat) (rest : List Token) :
    splitParens (depth + 2) (t :: rest) = (splitParens (depth + 1) rest).map fun p => (t :: p.1,p.2) := by
  rw [splitParens]
  cases hk : t.kind <;> first | rfl | (rw [hk] at h; cases h)

lemma splitParens_flat (h : t.kind.isFlat) (depth : Nat) (rest : List Token) : splitParens depth (t :: rest) =
      (splitParens depth rest).map fun p => (t :: p.1,p.2) := by
  rw [splitParens]
  cases hk : t.kind <;> first | rfl | (rw [hk] at h; cases h)

lemma splitParens_append {isOutside : Bool} (h : Balanced isOutside (ts.map kind)) (depth : Nat) (rest : List Token) :
    splitParens (depth + 1) (ts ++ rest) = (splitParens (depth + 1) rest).map fun p => (ts ++ p.1,p.2) := by
  generalize hk : ts.map kind = kinds at h
  induction h generalizing ts depth rest with
  | nil =>
    rw [map_eq_nil_iff.mp hk]
    exact Option.map_id'.symm
  | flat hf _ _ ih =>
    obtain ⟨t,post,rfl,rfl,ha⟩ := map_eq_cons_iff.mp hk
    rw [cons_append,splitParens_flat hf,ih _ _ ha,Option.map_map]; rfl
  | group ho hc _ _ ihinner ih =>
    obtain ⟨opening,inner,closing,post,rfl,rfl,hi,rfl,ha⟩ := exists_group_of_map hk
    rw [append_assoc,cons_append,splitParens_opening ho,ihinner _ _ hi,cons_append,splitParens_closing hc,ih _ _ ha]
    cases splitParens (depth + 1) rest with
    | none => rfl
    | some p => simp

lemma partsFrom_cons {part : List Token} {parts : List (List Token)} (h : (depth = 0 && t.kind == .comma) = false)
    (hp : partsFrom (depthAfter depth t.kind) rest = part :: parts) :
    partsFrom depth (t :: rest) = (t :: part) :: parts := by
  rw [partsFrom,h,hp]; rfl

lemma depthAfter_flat {kind : Kind} (h : kind.isFlat) (depth : Nat) : depthAfter depth kind = depth := by
  simp only [Kind.isFlat,and_eq_true,not_eq_true'] at h
  simp [depthAfter,h.1.1,h.1.2]

lemma depthAfter_opening {kind : Kind} (h : kind.opensParen) (depth : Nat) :
    depthAfter depth kind = depth + 1 ∧ kind ≠ .comma := by
  cases kind <;> first | exact ⟨rfl,by decide⟩ | cases h

lemma depthAfter_closing {kind : Kind} (h : kind.closesParen) (depth : Nat) : depthAfter (depth + 1) kind = depth := by
  cases kind <;> first | rfl | cases h

lemma partsFrom_append {part : List Token} {parts : List (List Token)}
    (h : Balanced (depth == 0) (ts.map kind)) (hp : partsFrom depth rest = part :: parts) :
    partsFrom depth (ts ++ rest) = (ts ++ part) :: parts := by
  generalize hk : ts.map kind = kinds at h
  generalize ho : (depth == 0) = isOutside at h
  induction h generalizing ts depth rest part parts with
  | nil =>
    rw [map_eq_nil_iff.mp hk]
    exact hp
  | flat hf hc _ ih =>
    obtain ⟨t,post,rfl,rfl,ha⟩ := map_eq_cons_iff.mp hk
    refine partsFrom_cons ?_ ?_
    · rw [Bool.and_eq_false_iff,decide_eq_false_iff_not,beq_eq_false_iff_ne]
      by_cases hd : depth = 0
      · exact .inr (hc (by rw [← ho,hd]; rfl))
      · exact .inl hd
    · rw [depthAfter_flat hf]
      exact ih hp ha ho
  | group hop hcl _ _ ihinner ih =>
    obtain ⟨opening,inner,closing,post,rfl,rfl,hi,rfl,ha⟩ := exists_group_of_map hk
    obtain ⟨hd,hc⟩ := depthAfter_opening hop depth
    have hce : partsFrom (depth + 1) (closing :: (post ++ rest)) = (closing :: (post ++ part)) :: parts := by
      refine partsFrom_cons rfl ?_
      rw [depthAfter_closing hcl]
      exact ih hp ha ho
    rw [append_assoc,append_assoc]
    refine partsFrom_cons ?_ ?_
    · rw [beq_eq_false_iff_ne.mpr hc,Bool.and_false]
    · rw [hd]
      exact ihinner hce hi rfl

lemma splitBefore_cons {stop : Token → Bool} (h : (depth = 0 && stop t) = false) :
    splitBefore stop depth (t :: rest) = (t :: (splitBefore stop (depthAfter depth t.kind) rest).1,
        (splitBefore stop (depthAfter depth t.kind) rest).2) := by
  rw [splitBefore,h]; rfl

lemma splitBefore_of_balanced {stop : Token → Bool} {isOutside : Bool} (h : Balanced isOutside (ts.map kind))
    (hs : ∀ t ∈ ts, (t.kind.isFlat || t.kind.opensParen) → stop t = false) (depth : Nat)
    (rest : List Token) :
    splitBefore stop depth (ts ++ rest) = (ts ++ (splitBefore stop depth rest).1,(splitBefore stop depth rest).2) := by
  generalize hk : ts.map kind = kinds at h
  induction h generalizing ts depth rest with
  | nil =>
    rw [map_eq_nil_iff.mp hk]; rfl
  | flat hf _ _ ih =>
    obtain ⟨t,post,rfl,rfl,ha⟩ := map_eq_cons_iff.mp hk
    have ht : stop t = false := hs t mem_cons_self (by rw [hf]; rfl)
    have hm := fun u hu => hs u (mem_cons_of_mem t hu)
    rw [cons_append,splitBefore_cons (by rw [ht,Bool.and_false]),depthAfter_flat hf,ih hm depth rest ha]
    rfl
  | group ho hc _ _ ihinner ih =>
    obtain ⟨opening,inner,closing,post,rfl,rfl,hi,rfl,ha⟩ := exists_group_of_map hk
    have ht : stop opening = false := hs opening mem_cons_self (by rw [ho,Bool.or_true])
    have hin := fun u hu => hs u (mem_cons_of_mem _ (mem_append_left _ hu))
    have hm := fun u hu =>
      hs u (mem_cons_of_mem _ (mem_append_right _ (mem_cons_of_mem _ hu)))
    have hcl : splitBefore stop (depth + 1) (closing :: (post ++ rest)) =
        (closing :: (post ++ (splitBefore stop depth rest).1),(splitBefore stop depth rest).2) := by
      rw [splitBefore_cons rfl,depthAfter_closing hc,ih hm depth rest ha]
    rw [append_assoc,cons_append,splitBefore_cons (by rw [ht,Bool.and_false]),
      (depthAfter_opening ho depth).1,ihinner hin _ _ hi,cons_append,hcl]
    simp

end Css.Token

namespace Css.Token
open List Text Lexer Written

abbrev Shape := Kind × String

def shape (t : Token) : Shape := (t.kind,t.text)

variable {t : Token} {text : String} {c : Char} {ends : List Char → Bool} {l : List Shape} {ts pre : List Token}

lemma kind_of_shape {kind : Kind} (h : t.shape = (kind,text)) : t.kind = kind := congrArg Prod.fst h

lemma text_of_shape {kind : Kind} (h : t.shape = (kind,text)) : t.text = text := congrArg Prod.snd h

lemma exists_pair_of_shapes {a b : Shape} (h : ts.map shape = a :: b :: l) :
    ∃ t u us, ts = t :: u :: us ∧ t.shape = a ∧ u.shape = b ∧ us.map shape = l := by
  obtain ⟨t,ts,rfl,ht,h⟩ := map_eq_cons_iff.mp h
  obtain ⟨u,us,rfl,hu,h⟩ := map_eq_cons_iff.mp h
  exact ⟨t,u,us,rfl,ht,hu,h⟩

lemma delim?_of_shape (h : t.shape = (.delim,String.ofList [c])) : t.delim? = some c := by
  rw [delim?,kind_of_shape h,text_of_shape h,String.toList_ofList]; rfl

lemma isDelim_of_shape (h : t.shape = (.delim,String.ofList [c])) (d : Char) : t.isDelim d = (c == d) := by
  rw [isDelim,delim?_of_shape h]; rfl

def shapes (s : List Char) : List Shape := (scanFrom 0 s).map shape

lemma map_shape_scanFrom (offset : Nat) (s : List Char) : (scanFrom offset s).map shape = shapes s := by
  rw [shapes]
  generalize 0 = offset'
  induction s using next_induction generalizing offset offset' with
  | nil => rw [scanFrom_nil,scanFrom_nil]
  | step s hs ih =>
    rw [scanFrom_eq_cons offset hs,scanFrom_eq_cons offset' hs,map_cons,map_cons]
    exact congrArg _ (ih _ _)

lemma shapes_nil : shapes [] = [] := by rw [shapes,scanFrom,map_nil]

lemma shapes_eq_cons {s : List Char} (hs : s ≠ []) :
    shapes s = ((Lexer.next s).kind,String.ofList (Lexer.next s).text) :: shapes (Lexer.next s).rest := by
  rw [shapes,scanFrom_eq_cons 0 hs,map_cons,map_shape_scanFrom]; rfl

def textOf (l : List Shape) : List Char := l.flatMap fun s => s.2.toList

lemma textOf_nil : textOf [] = [] := rfl

lemma textOf_cons (s : Shape) (l : List Shape) : textOf (s :: l) = s.2.toList ++ textOf l := flatMap_cons

lemma textOf_singleton (s : Shape) : textOf [s] = s.2.toList := by
  rw [textOf_cons,textOf_nil,append_nil]

lemma textOf_append (l l' : List Shape) : textOf (l ++ l') = textOf l ++ textOf l' := flatMap_append

def Scans (ends : List Char → Bool) (l : List Shape) : Prop :=
  ∀ rest, ends rest = true → shapes (textOf l ++ rest) = l ++ shapes rest

lemma scans_nil (ends : List Char → Bool) : Scans ends [] := fun _ _ => rfl

lemma Scans.append {ends' : List Char → Bool} {l' : List Shape} (h : Scans ends l)
    (h' : Scans ends' l') (he : ∀ rest, ends' rest → ends (textOf l' ++ rest)) :
    Scans ends' (l ++ l') := by
  intro rest hr
  rw [textOf_append,append_assoc,h _ (he rest hr),h' rest hr,append_assoc]

lemma Scans.mono {ends' : List Char → Bool} (h : Scans ends l) (he : ∀ rest, ends' rest → ends rest) : Scans ends' l :=
  fun rest hr => h rest (he rest hr)

lemma scans_of_next {kind : Kind} (hne : text.toList ≠ [])
    (h : ∀ rest, ends rest → Lexer.next (text.toList ++ rest) = ⟨kind,text.toList,rest⟩) :
    Scans ends [(kind,text)] := by
  intro rest hr
  have ht : text.toList ++ rest ≠ [] := fun hn => hne (append_eq_nil_iff.mp hn).1
  rw [textOf_singleton,shapes_eq_cons ht,h rest hr,String.ofList_toList]; rfl

def anything (_ : List Char) : Bool := true

lemma scans_char {kind : Kind} (h : ∀ rest, Lexer.next (c :: rest) = ⟨kind,[c],rest⟩) :
    Scans anything [(kind,String.ofList [c])] := by
  refine scans_of_next ?_ fun rest _ => ?_
  · rw [String.toList_ofList]
    exact cons_ne_nil c []
  · rw [String.toList_ofList]
    exact h rest

lemma scans_colon : Scans anything [(.colon,":")] := scans_char fun _ => rfl

section
variable {s : String} (h : Written.HasNoNull s.toList) (hs : s ≠ "")

include h hs

lemma identifier_ne_nil : (identifier s).toList ≠ [] := by
  intro hn
  have hst := startsIdent_identifier h hs []
  rw [hn] at hst; cases hst

lemma scans_identifier : Scans Lexer.endsName [(.ident,identifier s)] :=
  scans_of_next (identifier_ne_nil h hs) fun _ hr => Lexer.next_identifier h hs hr

lemma scans_hash : Scans Lexer.endsName [(.idHash,"#" ++ Written.identifier s)] := by
  have ht : ("#" ++ Written.identifier s).toList = '#' :: (Written.identifier s).toList := String.toList_append
  refine scans_of_next ?_ fun rest hr => ?_
  · rw [ht]
    exact cons_ne_nil '#' _
  · rw [ht]
    exact Lexer.next_hash h hs hr

lemma scans_function (hu : sameLetters (Written.identifier s) "url" = false) :
    Scans anything [(.function,Written.identifier s ++ "(")] := by
  have ht : (Written.identifier s ++ "(").toList = (Written.identifier s).toList ++ ['('] := String.toList_append
  refine scans_of_next ?_ fun rest _ => ?_
  · rw [ht]
    simp
  · rw [ht,append_assoc]
    exact Lexer.next_function h hs hu

end

lemma scans_string {s : String} (h : Written.HasNoNull s.toList) : Scans anything [(.string,string s)] := by
  refine scans_of_next ?_ fun rest _ => Lexer.next_string h rest
  rw [string,String.toList_ofList]
  exact cons_ne_nil _ _

lemma scans_point : Scans (fun rest => !Lexer.startsDigit rest) [(.delim,".")] := by
  refine scans_of_next (cons_ne_nil '.' []) fun rest hr => ?_
  have hn : Lexer.startsNumber ('.' :: rest) = false := (Bool.not_eq_true' _).mp hr
  change Lexer.next ('.' :: rest) = _
  rw [Lexer.next]
  simp only [hn]
  rfl

def startsSolid (s : List Char) : Bool := !s.head?.any isSpace

lemma scans_blank : Scans startsSolid [(.whitespace," ")] := by
  refine scans_of_next (cons_ne_nil ' ' []) fun rest hr => ?_
  change Lexer.next (' ' :: rest) = _
  cases rest with
  | nil => rfl
  | cons c rest =>
    have hc : isSpace c = false := (Bool.not_eq_true' _).mp hr
    have hsp : isSpace ' ' := rfl
    rw [Lexer.next,if_pos hsp,takeWhile_cons,dropWhile_cons,hc]; rfl

namespace Shape

def isBlank (s : Shape) : Bool := s.1 == .whitespace

end Shape

/-- Tokens that their text is cut into, with all brackets closed and no white space at the ends. -/
structure IsStretch (l : List Shape) : Prop where
  scans : Scans Lexer.endsName l
  balanced : Balanced true (l.map Prod.fst) := by exact .of_flat rfl
  solid : startsSolid (textOf l) = true := by rfl
  first : l.head?.any (fun s => !s.isBlank) = true := by rfl
  last : l.getLast?.any (fun s => !s.isBlank) = true := by rfl

lemma any_head?_append {α : Type} {p : α → Bool} {xs : List α} (h : xs.head?.any p)
    (ys : List α) : (xs ++ ys).head?.any p := by
  cases xs with
  | nil => cases h
  | cons x xs => exact h

lemma any_getLast?_append {α : Type} {p : α → Bool} (xs : List α) {ys : List α}
    (h : ys.getLast?.any p) : (xs ++ ys).getLast?.any p := by
  obtain ⟨y,hy,hp⟩ := (Option.any_eq_true _ _).mp h
  rw [getLast?_append,hy]
  exact hp

namespace IsStretch
variable {l l' : List Shape}

lemma shapes_ne_nil (h : IsStretch l) : l ≠ [] := by
  rintro rfl
  cases h.first

lemma text_ne_nil (h : IsStretch l) : textOf l ≠ [] := by
  intro hn
  have hsc := h.scans [] rfl
  rw [hn] at hsc
  exact h.shapes_ne_nil (append_left_eq_self.mp hsc.symm)

lemma startsSolid_append (h : IsStretch l) (rest : List Char) : startsSolid (textOf l ++ rest) := by
  have hsl := h.solid
  cases ht : textOf l with
  | nil => exact absurd ht h.text_ne_nil
  | cons c text =>
    rw [ht] at hsl
    exact hsl

lemma endsName_append (h : IsStretch l) (he : endsName (textOf l)) (rest : List Char) : endsName (textOf l ++ rest) := by
  cases ht : textOf l with
  | nil => exact absurd ht h.text_ne_nil
  | cons c text =>
    rw [ht] at he
    exact he

lemma append (h : IsStretch l) (h' : IsStretch l') (he : endsName (textOf l')) : IsStretch (l ++ l') where
  scans := h.scans.append h'.scans fun rest _ => h'.endsName_append he rest
  balanced := by
    rw [map_append]
    exact h.balanced.append h'.balanced
  solid := by
    rw [textOf_append]
    exact h.startsSolid_append _
  first := any_head?_append h.first l'
  last := any_getLast?_append l h'.last

end IsStretch

lemma dropBlank_cons (h : t.kind ≠ .whitespace) (rest : List Token) : dropBlank (t :: rest) = t :: rest := by
  rw [dropBlank,dropWhile_cons_of_neg]
  rw [isBlank,beq_iff_eq]
  exact h

lemma dropBlank_blank (h : t.kind = .whitespace) (rest : List Token) : dropBlank (t :: rest) = dropBlank rest := by
  rw [dropBlank,dropWhile_cons_of_pos]
  · rfl
  · rw [isBlank,h]; rfl

lemma any_head?_of_map {p : Shape → Bool} (hts : ts.map shape = l) (h : l.head?.any p) :
    ts.head?.any (fun t => p t.shape) := by
  subst hts
  cases ts with
  | nil => cases h
  | cons t ts => exact h

lemma dropBlank_of_solid (h : ts.head?.any (fun t => !t.isBlank)) : dropBlank ts = ts := by
  cases ts with
  | nil => rfl
  | cons t ts =>
    refine dropBlank_cons (fun hk => ?_) ts
    rw [head?_cons,Option.any_some,Token.isBlank,hk] at h; cases h

lemma dropBlank_append (h : ∀ t ∈ pre, t.isBlank) : dropBlank (pre ++ ts) = dropBlank ts := by
  rw [dropBlank,dropWhile_append_of_pos h]; rfl

lemma trimBlank_of_solid (hts : ts.map shape = l) (hf : l.head?.any (fun s => !s.isBlank))
    (hl : l.getLast?.any (fun s => !s.isBlank)) : trimBlank ts = ts := by
  have he : ts.reverse.head?.any (fun t => !t.shape.isBlank) := by
    refine any_head?_of_map (l := l.reverse) (p := fun s => !s.isBlank) ?_ ?_
    · rw [map_reverse,hts]
    · rw [head?_reverse]
      exact hl
  rw [trimBlank,dropBlank_of_solid (any_head?_of_map hts hf),dropBlank_of_solid he,reverse_reverse]

lemma trimBlank_append (h : IsStretch l) (hb : ∀ t ∈ pre, t.isBlank) (hts : ts.map shape = l) :
    trimBlank (pre ++ ts) = ts := by
  rw [trimBlank,dropBlank_append hb]
  exact trimBlank_of_solid hts h.first h.last

lemma balanced_append (hb : ∀ t ∈ pre, t.isBlank) (hts : ts.map shape = l)
    (h : Balanced true (l.map Prod.fst)) : Balanced true ((pre ++ ts).map kind) := by
  rw [map_append]
  refine Balanced.append ?_ ?_
  · refine .of_flat ?_
    rw [all_eq_true]
    intro k hk
    obtain ⟨t,ht,rfl⟩ := mem_map.mp hk
    have hkn := eq_of_beq (hb t ht)
    rw [hkn]; rfl
  · rw [← hts,map_map] at h
    exact h

lemma scan_of_scans {isOutside : Bool} (hss : Scans ends l) (he : ends [])
    (hb : Balanced isOutside (l.map Prod.fst)) (htx : text.toList = textOf l) :
    scanRules text = scan text ∧ (scan text).map shape = l := by
  have hsc : (scan text).map shape = l := by
    have hsh := hss [] he
    rw [shapes_nil,append_nil,append_nil] at hsh
    rw [scan,map_shape_scanFrom,htx,hsh]
  refine ⟨filter_eq_self.mpr fun t ht => bne_iff_ne.mpr ?_,hsc⟩
  have hk : t.kind ∈ l.map Prod.fst := by
    rw [← hsc,map_map]
    exact mem_map_of_mem ht
  exact hb.ne_comment t.kind hk

end Css.Token
