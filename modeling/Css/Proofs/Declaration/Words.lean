import Css.Proofs.Selector.Contents

/-!
# Declarations of keywords

Declarations whose values are keywords, as tokens, as components of a value and as text.
-/
namespace Css
open List Text Token Value Component.render Component Declaration RuleParser

abbrev Word := { s : String // Written.IsNameable s }

structure Wording where
  property : Word
  first : Word
  more : List Word

namespace Word

def shape (w : Word) : Shape := (.ident,Written.identifier w)

def component (w : Word) : Component := .ident w

def shapes (w : Word) (more : List Word) : List Shape := w.shape :: more.flatMap fun v => [(.whitespace," "),v.shape]

def components (w : Word) (more : List Word) : List Component :=
  w.component :: more.flatMap fun v => [.whitespace,v.component]

lemma isStretch_shape (w : Word) : IsStretch [w.shape] where
  scans := w.2.scans
  balanced := .of_flat rfl
  solid := by
    rw [textOf_singleton]
    exact w.2.startsSolid
  first := rfl
  last := rfl

lemma isStretch_shapes (w : Word) (more : List Word) : IsStretch (shapes w more) := by
  induction more generalizing w with
  | nil => exact w.isStretch_shape
  | cons v more ih =>
    have hm := ih v
    have hs := w.2.scans.append (scans_blank.append hm.scans fun rest _ => hm.startsSolid_append rest) fun _ _ => rfl
    have hb : Balanced true [.ident,.whitespace] := .of_flat rfl
    refine ⟨hs,hb.append hm.balanced,?_,rfl,?_⟩
    · have hsl := w.isStretch_shape.startsSolid_append (textOf ((.whitespace," ") :: shapes v more))
      rwa [← textOf_append] at hsl
    · exact any_getLast?_append [w.shape,(.whitespace," ")] hm.last

lemma kind_of_mem_shapes {w : Word} {more : List Word} : ∀ s ∈ shapes w more, s.1 = .ident ∨ s.1 = .whitespace := by
  intro s hs
  rcases mem_cons.mp hs with rfl | hs
  · exact .inl rfl
  · obtain ⟨v,-,hs⟩ := mem_flatMap.mp hs
    rcases mem_cons.mp hs with rfl | hs
    · exact .inr rfl
    · rw [mem_singleton.mp hs]
      exact .inl rfl

lemma isRead_components (w : Word) (more : List Word) : IsRead endsRange (components w more) (shapes w more) := by
  induction more generalizing w with
  | nil => exact isRead_ident w.2.hasNoNull
  | cons v more ih =>
    have hb := (isRead_ident w.2.hasNoNull).blank rfl rfl
    exact hb.append_any (ih v)

lemma toList_components (m : Bool) (pre : Option Component) (w : Word) (more : List Word) (rest : List Component) :
    (renderList m pre (components w more ++ .semicolon :: rest)).toList =
      textOf (shapes w more) ++ (";".toList ++ (renderList m (some .semicolon) rest).toList) := by
  induction more generalizing w pre with
  | nil =>
    rw [components,shapes,flatMap_nil,flatMap_nil,textOf_singleton,singleton_append,
      renderList_cons,renderList_cons,String.toList_append,String.toList_append]
    rfl
  | cons v more ih =>
    have hm := ih (some .whitespace) v
    have hc : components w (v :: more) ++ .semicolon :: rest =
        w.component :: .whitespace :: (components v more ++ .semicolon :: rest) := rfl
    have hs : shapes w (v :: more) = w.shape :: (.whitespace," ") :: shapes v more := rfl
    rw [hc,hs,renderList_cons,renderList_cons,String.toList_append,
      String.toList_append,hm,textOf_cons,textOf_cons,append_assoc,append_assoc]
    rfl

end Word

namespace Wording

def shapes (tight : Bool) (d : Wording) : List Shape :=
  d.property.shape :: (.colon,":") :: (gap tight ++ Word.shapes d.first d.more)

def components (d : Wording) : List Component :=
  d.property.component :: .colon :: .whitespace :: Word.components d.first d.more

def shapesAll (tight : Bool) : List Wording → List Shape
  | [] => []
  | d :: ds => d.shapes tight ++ (.semicolon,";") :: shapesAll tight ds

def componentsAll : List Wording → List Component
  | [] => []
  | d :: ds => d.components ++ .semicolon :: componentsAll ds

lemma scans_shapesAll (tight : Bool) (ds : List Wording) : Scans anything (shapesAll tight ds) := by
  induction ds with
  | nil => exact scans_nil _
  | cons d ds ih =>
    have hvalue := Word.isStretch_shapes d.first d.more
    have hg := (scans_gap tight).append hvalue.scans fun rest _ => hvalue.startsSolid_append rest
    have hd := d.property.2.scans.append (scans_colon.append hg fun _ _ => rfl) fun _ _ => rfl
    have hs : Scans anything [(.semicolon,";")] := scans_char fun _ => rfl
    exact hd.append (hs.append ih fun _ _ => rfl) fun _ _ => rfl

lemma ne_comment_of_mem_shapesAll {tight : Bool} {ds : List Wording} : ∀ s ∈ shapesAll tight ds, s.1 ≠ .comment := by
  induction ds with
  | nil =>
    intro s hs
    cases hs
  | cons d ds ih =>
    intro s hs
    rcases mem_append.mp hs with hs | hs
    · have hg : Balanced true ((gap tight).map Prod.fst) := by cases tight <;> exact .of_flat rfl
      have hvalue := hg.append (Word.isStretch_shapes d.first d.more).balanced
      have hn : Balanced true [.ident,.colon] := .of_flat rfl
      rw [← map_append] at hvalue
      exact (hn.append hvalue).ne_comment s.1 (mem_map_of_mem hs)
    · rcases mem_cons.mp hs with rfl | hs
      · decide
      · exact ih s hs

lemma isRead_componentsAll (ds : List Wording) : IsRead whatever (componentsAll ds) (shapesAll false ds) := by
  induction ds with
  | nil => exact isRead_nil
  | cons d ds ih =>
    have hn := (isRead_ident d.property.2.hasNoNull).append isRead_colon rfl
    have hvalue := (hn.blank rfl rfl).append_any (Word.isRead_components d.first d.more)
    have ha := (hvalue.append isRead_semicolon rfl).append_any ih
    simp only [append_assoc] at ha
    exact ha

lemma isTrimmed_componentsAll (ds : List Wording) : isTrimmed (componentsAll ds) := by
  cases ds with
  | nil => rfl
  | cons d ds =>
    refine isTrimmed_of_ends rfl ?_
    induction ds generalizing d with
    | nil => exact any_getLast?_append _ rfl
    | cons d' ds ih =>
      rw [componentsAll]
      exact any_getLast?_append _ (any_getLast?_append [.semicolon] (ih d'))

lemma toList_componentsAll (m : Bool) (pre : Option Component) (ds : List Wording) :
    (renderList m pre (componentsAll ds)).toList = textOf (shapesAll m ds) := by
  induction ds generalizing pre with
  | nil => rfl
  | cons d ds ih =>
    have hm := ih (some .semicolon)
    have hg : (Component.blank m (some .colon) (some d.first.component)).toList = textOf (gap m) := by
      cases m with
      | false => exact (textOf_singleton (.whitespace," ")).symm
      | true => rfl
    have hc : componentsAll (d :: ds) = d.property.component :: .colon :: .whitespace ::
        (Word.components d.first d.more ++ .semicolon :: componentsAll ds) := rfl
    rw [hc,Component.renderList_cons,Component.renderList_cons,Component.renderList_cons,
      String.toList_append,String.toList_append,String.toList_append,Word.toList_components,hm,
      shapesAll,shapes,textOf_append,textOf_cons,textOf_cons,textOf_append,textOf_cons,
      append_assoc,append_assoc,append_assoc,← hg]
    rfl

lemma exists_parseFrom {ts : List Token}
    (h : ∀ t ∈ ts, t.kind = .ident ∨ t.kind = .whitespace) (file : SourceFile) (dashed : Bool)
    (skip : Nat) (xs : List Component) (stop : Nat) :
    ∃ value, parseFrom file dashed skip [] xs stop ts = .ok value := by
  induction ts generalizing skip xs stop with
  | nil => exact ⟨_,by rw [parseFrom]⟩
  | cons t ts ih =>
    have hm := ih fun u hu => h u (mem_cons_of_mem t hu)
    cases skip with
    | succ skip =>
      rw [parseFrom]
      exact hm skip xs stop
    | zero =>
      rw [parseFrom.eq_def]
      dsimp only
      rcases h t mem_cons_self with hk | hk
      · rw [hk]
        dsimp only
        split
        · exact hm _ _ _
        · exact hm _ _ _
      · rw [hk]
        exact hm _ _ _

lemma afterColon?_cons {colon : Token} (hc : colon.kind = .colon) (value : List Token) :
    afterColon? (colon :: value) = some value := by
  rw [afterColon?,dropBlank_cons (by rw [hc]; decide)]
  dsimp only
  rw [hc]; rfl

section
variable {tight : Bool} {w : Wording} {name colon : Token} {value : List Token}
  (hvalue : value.map Token.shape = gap tight ++ Word.shapes w.first w.more)

include hvalue

lemma kind_of_mem_value : ∀ t ∈ value, t.kind = .ident ∨ t.kind = .whitespace := by
  intro t ht
  have hm := mem_map_of_mem (f := Token.shape) ht
  rw [hvalue] at hm
  rcases mem_append.mp hm with hg | hw
  · cases tight with
    | true => cases hg
    | false => exact .inr (kind_of_shape (mem_singleton.mp hg))
  · exact Word.kind_of_mem_shapes t.shape hw

lemma splitBefore_value {stop : Token → Bool}
    (hs : ∀ t, t.kind = .ident ∨ t.kind = .whitespace → stop t = false) (rest : List Token) :
    splitBefore stop 0 (value ++ rest) = (value ++ (splitBefore stop 0 rest).1,(splitBefore stop 0 rest).2) := by
  have hk := kind_of_mem_value hvalue
  refine splitBefore_of_balanced (.of_flat ?_) (fun t ht _ => hs t (hk t ht)) 0 rest
  rw [all_map,all_eq_true]
  intro t ht
  rcases hk t ht with hkn | hkn <;> rw [Function.comp_apply,hkn] <;> rfl

lemma exists_parseEntry {d : Dialect} (hm : d.modules = false) (hn : name.kind = .ident) (hc : colon.kind = .colon) :
    ∃ decl, Declaration.parseEntry d name (colon :: value) = .ok (.declaration decl) := by
  have ha := afterColon?_cons hc value
  obtain ⟨blanks,words,rfl,hb,hw⟩ := map_eq_append_iff.mp hvalue
  have htg : words.map Token.shape = gap true ++ Word.shapes w.first w.more := hw
  have htr := trimBlank_append (Word.isStretch_shapes w.first w.more) (Selector.isBlank_of_gap hb) hw
  have hbn : ∀ t : Token, t.kind = .ident ∨ t.kind = .whitespace → t.isDelim '!' = false := by
    intro t ht
    rcases ht with hk | hk <;> rw [isDelim,delim?,hk] <;> rfl
  have hs := splitBefore_value htg hbn []
  have hi : Declaration.splitImportant words = .ok (words,false) := by
    rw [append_nil] at hs
    rw [Declaration.splitImportant,hs]; rfl
  have hne : words.isEmpty = false := by
    rw [isEmpty_eq_false_iff]
    rintro rfl
    cases hw
  obtain ⟨v,hv⟩ := exists_parseFrom (kind_of_mem_value htg) d.file (d.modules && d.dashed) 0 [] 0
  refine ⟨⟨Property.ofName name.name,v,false,d.location name⟩,?_⟩
  have hp : Declaration.parse d name (colon :: (blanks ++ words)) =
      .ok ⟨Property.ofName name.name,v,false,d.location name⟩ := by
    rw [Declaration.parse,hn,if_pos (beq_self_eq_true _),ha]
    dsimp only
    rw [htr,hi]
    dsimp only
    rw [hne,Bool.false_and,if_neg Bool.false_ne_true]
    unfold Value.parse
    rw [hv]
  rw [Declaration.parseEntry,hp,hm]; rfl

lemma startsDeclaration_cons (hc : colon.kind = .colon) {semicolon : Token}
    (hs : semicolon.kind = .semicolon) (rest : List Token) :
    startsDeclaration name (colon :: (value ++ semicolon :: rest)) := by
  have he : ∀ t : Token, t.kind = .ident ∨ t.kind = .whitespace → isPreludeEnd t = false := by
    intro t ht
    rcases ht with hk | hk <;> rw [isPreludeEnd,hk] <;> rfl
  have hst : splitBefore isPreludeEnd 0 (semicolon :: rest) = ([],semicolon :: rest) := by
    rw [splitBefore,isPreludeEnd,hs]; rfl
  rw [startsDeclaration,afterColon?_cons hc]
  dsimp only
  rw [splitBefore_value hvalue he,hst]
  dsimp only
  rw [hs]
  exact Bool.or_true _

lemma splitBefore_isEnd (hc : colon.kind = .colon) {semicolon : Token}
    (hs : semicolon.kind = .semicolon) (rest : List Token) :
    splitBefore isEnd 0 (colon :: (value ++ semicolon :: rest)) = (colon :: value,semicolon :: rest) := by
  have he : ∀ t : Token, t.kind = .ident ∨ t.kind = .whitespace → isEnd t = false := by
    intro t ht
    rcases ht with hk | hk <;> rw [isEnd,hk] <;> rfl
  have hst : splitBefore isEnd 0 (semicolon :: rest) = ([],semicolon :: rest) := by
    rw [splitBefore,isEnd,hs]; rfl
  have hd : depthAfter 0 .colon = 0 := rfl
  rw [splitBefore,isEnd,hc,hd,splitBefore_value hvalue he,hst,append_nil]; rfl

end

lemma body_of_startsDeclaration {d : Dialect} {t : Token} (ht : t.kind = .ident)
    {rest : List Token} (hs : startsDeclaration t rest) (fuel : Nat)
    (opening : Token) :
    body d (fuel + 1) .style (some opening) (t :: rest) = (do
      let parts := splitBefore isEnd 0 rest
      let entry ← d.attempt (parseEntry d t parts.1)
      let (b,rest) ← body d fuel .style (some opening) parts.2
      return (b.addEntry entry,rest)) := by
  rw [body,ht]
  rw [hs]; rfl

lemma body_of_shapesAll {d : Dialect} (hm : d.modules = false) {tight : Bool}
    {ds : List Wording} {ts : List Token} (ht : ts.map Token.shape = shapesAll tight ds)
    {closing : Token} (hcl : closing.kind = .rightBrace) (opening : Token) (post : List Token)
    {fuel : Nat} (hf : ts.length < fuel) :
    ∃ b, RuleParser.body d fuel .style (some opening) (ts ++ closing :: post) = pure (b,post) ∧ b.rules = [] := by
  induction ds generalizing ts fuel with
  | nil =>
    obtain ⟨fuel,rfl⟩ := Nat.exists_eq_succ_of_ne_zero (Nat.ne_zero_of_lt hf)
    cases map_eq_nil_iff.mp ht
    refine ⟨{},?_,rfl⟩
    rw [nil_append,RuleParser.body,hcl]; rfl
  | cons w ds ih =>
    obtain ⟨decl,rest,rfl,hd,hr⟩ := map_eq_append_iff.mp ht
    obtain ⟨semicolon,rest,rfl,hs,hr⟩ := map_eq_cons_iff.mp hr
    obtain ⟨name,decl,rfl,hn,hd⟩ := map_eq_cons_iff.mp hd
    obtain ⟨colon,value,rfl,hc,hvalue⟩ := map_eq_cons_iff.mp hd
    have hs := kind_of_shape hs
    have hn := kind_of_shape hn
    have hc := kind_of_shape hc
    simp only [length_append,length_cons] at hf
    obtain ⟨fuel,rfl⟩ : ∃ n, fuel = n + 2 := ⟨fuel - 2,by omega⟩
    have hsh : rest.length < fuel := by omega
    obtain ⟨b,hb,hrl⟩ := ih hr hsh
    obtain ⟨parsed,hp⟩ := exists_parseEntry hvalue hm hn hc
    have hsk : RuleParser.body d (fuel + 1) .style (some opening)
        (semicolon :: (rest ++ closing :: post)) = pure (b,post) := by
      rw [RuleParser.body,hs]
      exact hb
    have ht : name :: colon :: value ++ semicolon :: rest ++ closing :: post =
        name :: colon :: (value ++ semicolon :: (rest ++ closing :: post)) := by simp
    refine ⟨b.addEntry (some (.declaration parsed)),?_,hrl⟩
    rw [ht,body_of_startsDeclaration hn (startsDeclaration_cons hvalue hc hs _),splitBefore_isEnd hvalue hc hs]
    dsimp only
    rw [hp,Dialect.attempt,pure_bind,hsk,pure_bind]

end Wording
end Css
