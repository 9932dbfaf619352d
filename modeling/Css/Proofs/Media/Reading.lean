import Css.Proofs.Media.Grammar
import Css.Proofs.Value.Reading

/-!
# Media features are read back

The text of a feature with single values is cut into its words and signs, and from them the parser makes
the same feature.
-/
namespace Css
open List Text Token
open Written (IsLowerName IsNameable identifier)
namespace Token

def endsWord (s : List Char) : Bool := Lexer.endsName s && Lexer.endsNumeric s

/-- What is cut into tokens of which the first is no white space does not start with white space. -/
lemma Scans.startsSolid {ends : List Char → Bool} {l : List Shape} (h : Scans ends l)
    (he : ends []) (hf : l.head?.any (fun s => !s.isBlank)) (rest : List Char) :
    Token.startsSolid (textOf l ++ rest) := by
  have hsh := h [] he
  rw [shapes_nil,append_nil,append_nil] at hsh
  cases ht : textOf l with
  | nil =>
    rw [ht,shapes_nil] at hsh
    rw [← hsh] at hf; cases hf
  | cons c text =>
    rw [ht,shapes_eq_cons (cons_ne_nil c text)] at hsh
    rw [cons_append,Token.startsSolid,head?_cons,Option.any_some,Bool.not_eq_true']
    by_contra hsp
    rw [Bool.not_eq_false] at hsp
    rw [Lexer.next,if_pos hsp] at hsh
    rw [← hsh] at hf; cases hf

lemma Scans.blank {ends ends' : List Char → Bool} {l l' : List Shape} (h : Scans ends l)
    (he : ∀ rest, ends (' ' :: rest)) (h' : Scans ends' l') (he' : ends' [])
    (hf : l'.head?.any (fun s => !s.isBlank)) :
    Scans ends' (l ++ (.whitespace," ") :: l') :=
  h.append (scans_blank.append h' fun rest _ => h'.startsSolid he' hf rest) fun rest _ => he (textOf l' ++ rest)

lemma delim?_of_blank {w : Token} (hw : w.shape = (.whitespace," ")) : w.delim? = none := by
  rw [delim?,kind_of_shape hw]

lemma forall_isBlank {w : Token} (hw : w.shape = (.whitespace," ")) : ∀ t ∈ [w], t.isBlank := by
  rw [forall_mem_singleton,isBlank,kind_of_shape hw]; rfl

lemma trimBlank_singleton {v : Token} (hv : v.isBlank = false) {pre post : List Token}
    (hb : ∀ t ∈ pre, t.isBlank) (ha : ∀ t ∈ post, t.isBlank) :
    trimBlank (pre ++ v :: post) = [v] := by
  have hk : v.kind ≠ .whitespace := by simpa [isBlank] using hv
  have hr : ∀ t ∈ post.reverse, t.isBlank := fun t ht =>
    ha t (mem_reverse.mp ht)
  rw [trimBlank,dropBlank_append hb,dropBlank_cons hk,reverse_cons,dropBlank_append hr,dropBlank_cons hk]
  rfl

end Token

/-- Whether the value is one identifier, number, percentage or dimension, with a finite number. -/
def Value.isSingle : Value → Bool
  | [.ident _] => true
  | [.number x] => Binary32.magnitude x < Binary32.infinityBits
  | [.percentage x] => Binary32.magnitude x < Binary32.infinityBits
  | [.dimension x _] => Binary32.magnitude x < Binary32.infinityBits
  | _ => false

def Token.Kind.isWord : Kind → Bool
  | .ident | .number | .percentage | .dimension => true
  | _ => false

namespace Value

def ofWord (t : Token) : Component := match t.kind with
  | .number => .number t.number
  | .percentage => .percentage t.number
  | .dimension => .dimension t.number t.unit
  | _ => .ident t.name

lemma parse_singleton (file : SourceFile) {t : Token} (h : t.kind.isWord) : parse file false [t] = .ok [ofWord t] := by
  have hr : range? t [] = none := by
    rw [range?]
    split <;> rfl
  rw [parse,parseFrom.eq_def]
  dsimp only
  rw [ofWord,separate_nil,hr]
  cases hk : t.kind with
  | ident =>
    rw [parseFrom]; rfl
  | number | percentage | dimension =>
    dsimp only
    rw [pushNumeric_nil,parseFrom]; rfl
  | _ =>
    rw [hk] at h; cases h

/-- How a single value reads back: its text is one token, and the token is the same value. -/
structure ReadsAs (value : Value) (s : Shape) : Prop where
  text : value.render false = s.2
  scans : Scans endsWord [s]
  isWord : s.1.isWord = true
  isNot : ∀ {t : Token}, t.shape = s → t.isIdent "not" = value.startsWithNot
  same : ∀ {t : Token}, t.shape = s → value.same [ofWord t] = true

lemma ReadsAs.parsed {value : Value} {s : Shape} (h : value.ReadsAs s) (file : SourceFile) {t : Token}
    (ht : t.shape = s) : parse file false [t] = .ok [ofWord t] := by
  refine parse_singleton file ?_
  rw [show t.kind = s.1 from congrArg Prod.fst ht]
  exact h.isWord

lemma same_singleton (c d : Component) : Value.same [c] [d] = c.same d := by
  rw [Value.same,Component.same.sameAll,Component.same.sameAll,Bool.and_true]

lemma readsAs_ident {name : String} (h : IsNameable name) :
    ReadsAs [.ident name] (.ident,identifier name) where
  text := String.append_empty
  scans := h.scans.mono fun _ hr => (Bool.and_eq_true_iff.mp hr).1
  isWord := rfl
  isNot := by
    intro t ht
    have hk := kind_of_shape ht
    rw [isIdent,hk,name_of_identifier h.hasNoNull hk (text_of_shape ht)]; rfl
  same := by
    intro t ht
    have hk := kind_of_shape ht
    rw [ofWord,hk,name_of_identifier h.hasNoNull hk (text_of_shape ht),same_singleton]
    exact beq_self_eq_true name

section
variable {x : Float32} (hx : Binary32.magnitude x < Binary32.infinityBits)

include hx

lemma readsAs_number : ReadsAs [.number x] (.number,Number.format false x) where
  text := String.append_empty
  scans := (scans_number hx).mono fun _ hr => (Bool.and_eq_true_iff.mp hr).2
  isWord := rfl
  isNot := by
    intro t ht
    rw [isIdent,kind_of_shape ht]; rfl
  same := by
    intro t ht
    have htx : t.text.toList = (Number.format false x).toList ++ [] := by
      rw [text_of_shape ht,append_nil]
    rw [ofWord,kind_of_shape ht,same_singleton]
    exact number_of_format hx htx rfl

lemma readsAs_percentage : ReadsAs [.percentage x] (.percentage,Number.format false x ++ "%") where
  text := String.append_empty
  scans := (scans_percentage hx).mono fun _ _ => rfl
  isWord := rfl
  isNot := by
    intro t ht
    rw [isIdent,kind_of_shape ht]; rfl
  same := by
    intro t ht
    have htx : t.text.toList = (Number.format false x).toList ++ ['%'] := by
      rw [text_of_shape ht,String.toList_append]; rfl
    rw [ofWord,kind_of_shape ht,same_singleton]
    exact number_of_format hx htx rfl

lemma readsAs_dimension {unit : String} (h : IsNameable unit) :
    ReadsAs [.dimension x unit] (.dimension,Number.format false x ++ Written.unit unit) where
  text := String.append_empty
  scans := (scans_dimension hx h.hasNoNull h.nonempty).mono fun _ hr =>
    (Bool.and_eq_true_iff.mp hr).2
  isWord := rfl
  isNot := by
    intro t ht
    rw [isIdent,kind_of_shape ht]; rfl
  same := by
    intro t ht
    have hk := kind_of_shape ht
    have htx : t.text.toList = (Number.format false x).toList ++ (Written.unit unit).toList := by
      rw [text_of_shape ht,String.toList_append]
    have he : Lexer.endsNumber ((Written.unit unit).toList ++ []) := Written.endsNumber_unit rfl h.hasNoNull h.nonempty
    rw [append_nil] at he
    rw [ofWord,hk,unit_of_format hx h.hasNoNull h.nonempty hk htx,same_singleton]
    exact Bool.and_eq_true_iff.mpr ⟨number_of_format hx htx he,beq_self_eq_true unit⟩

end

lemma exists_readsAs {value : Value} (hv : value.IsLegible) (h : value.isSingle) : ∃ s, value.ReadsAs s := by
  unfold isSingle at h
  split at h
  · exact ⟨_,readsAs_ident (hv _ mem_cons_self)⟩
  · exact ⟨_,readsAs_number (of_decide_eq_true h)⟩
  · exact ⟨_,readsAs_percentage (of_decide_eq_true h)⟩
  · exact ⟨_,readsAs_dimension (of_decide_eq_true h) (hv _ mem_cons_self)⟩
  · cases h

end Value

namespace Comparison

def shapes : Comparison → List Shape
  | equal => [(.delim,"=")]
  | greater => [(.delim,">")]
  | greaterEqual => [(.delim,">"),(.delim,"=")]
  | less => [(.delim,"<")]
  | lessEqual => [(.delim,"<"),(.delim,"=")]

lemma toList_symbol (c : Comparison) : c.symbol.toList = textOf c.shapes := by cases c <;> rfl

lemma scans_shapes (c : Comparison) : Scans (fun rest => rest.head? == some ' ') c.shapes := by
  intro rest hr
  obtain ⟨rest,rfl⟩ := head?_eq_some_iff.mp (eq_of_beq hr)
  cases c with
  | equal | greater | less => exact shapes_eq_cons (cons_ne_nil _ _)
  | greaterEqual | lessEqual =>
    refine (shapes_eq_cons (cons_ne_nil _ _)).trans ?_
    exact congrArg _ (shapes_eq_cons (cons_ne_nil _ _))

end Comparison

namespace Media

lemma splitComparisons_append {pre : List Token} (h : ∀ t ∈ pre, t.delim? = none)
    (rest : List Token) : splitComparisons (pre ++ rest) =
      (pre ++ (splitComparisons rest).1,(splitComparisons rest).2) := by
  induction pre with
  | nil => rfl
  | cons t pre ih =>
    obtain ⟨ht,hb⟩ := forall_mem_cons.mp h
    rw [cons_append,Cursor.splitComparisons_cons,comparison?,ht,ih hb]; rfl

lemma splitComparisons_sign {c : Comparison} {signs : List Token} (hsg : signs.map shape = c.shapes)
    {w : Token} (hw : w.delim? = none) (rest : List Token) :
    splitComparisons (signs ++ w :: rest) =
      ([],(c,(splitComparisons (w :: rest)).1) :: (splitComparisons (w :: rest)).2) := by
  have he : w.isDelim '=' = false := by
    rw [isDelim,hw]; rfl
  cases c with
  | equal | greater | less =>
    obtain ⟨t,more,rfl,ht,hm⟩ := map_eq_cons_iff.mp hsg
    cases map_eq_nil_iff.mp hm
    rw [singleton_append,Cursor.splitComparisons_cons,comparison?,delim?_of_shape ht,head?_cons,Option.any_some,he]
    rfl
  | greaterEqual | lessEqual =>
    obtain ⟨t,u,more,rfl,ht,hu,hm⟩ := exists_pair_of_shapes hsg
    cases map_eq_nil_iff.mp hm
    rw [cons_append,singleton_append,Cursor.splitComparisons_cons,comparison?,delim?_of_shape ht,
      head?_cons,Option.any_some,isDelim_of_shape hu,isDelim_of_shape ht]
    rfl

lemma splitComparisons_compared {c : Comparison} {pre signs : List Token}
    (hb : ∀ t ∈ pre, t.delim? = none) (hsg : signs.map shape = c.shapes) {w : Token}
    (hw : w.delim? = none) {rest part : List Token} {more : List (Comparison × List Token)}
    (hr : splitComparisons (w :: rest) = (part,more)) :
    splitComparisons (pre ++ (signs ++ w :: rest)) = (pre,(c,part) :: more) := by
  rw [splitComparisons_append hb,splitComparisons_sign hsg hw,hr,append_nil]

lemma splitComparisons_of_none {ts : List Token} (h : ∀ t ∈ ts, t.delim? = none) : splitComparisons ts = (ts,[]) := by
  have ha := splitComparisons_append h []
  rw [append_nil] at ha
  rw [ha,splitComparisons,append_nil]

end Media

namespace MediaFeature

def same : MediaFeature → MediaFeature → Bool
  | plain a v, plain b w => a == b && v.same w
  | boolean a, boolean b => a == b
  | range a c v, range b d w => a == b && c == d && v.same w
  | interval v c a d w, interval x e b f y => a == b && c == e && d == f && v.same x && w.same y
  | _, _ => false

def isSimple : MediaFeature → Bool
  | plain name value => name != "not" && value.isSingle
  | boolean name => name != "not"
  | range name _ value => name != "not" && value.isSingle
  | interval start _ name _ stop => name != "not" && start.isSingle && stop.isSingle

structure ReadsAs (f : MediaFeature) (l : List Shape) : Prop where
  scans : Scans endsWord l
  flat : l.all (fun s => s.1.isFlat && s.1 != .comma) = true
  first : l.head?.any (fun s => !s.isBlank) = true
  last : l.getLast?.any (fun s => !s.isBlank) = true
  text : (f.render false).toList = '(' :: (textOf l ++ [')'])
  notCondition : ∀ {ts : List Token}, ts.map shape = l → Media.startsCondition ts = false
  parsed : ∀ (file : SourceFile) (fault : Fault) {ts : List Token}, ts.map shape = l →
    ∃ f', Media.feature? file fault ts = .ok (some f') ∧ f.same f' = true

lemma ReadsAs.balanced {f : MediaFeature} {l : List Shape} (h : f.ReadsAs l) : Balanced true (l.map Prod.fst) := by
  refine .of_flat ?_
  rw [all_map]
  exact h.flat

end MediaFeature

/-- A name in lower case or of a custom media query does not negate if it is not the word itself. -/
lemma Text.sameLetters_not {name : String} (hlw : startsWith name "--" = false → lower name = name) (h : name ≠ "not") :
    sameLetters name "not" = false := by
  cases hc : startsWith name "--" with
  | false =>
    rw [sameLetters,hlw hc]
    exact beq_eq_false_iff_ne.mpr h
  | true =>
    rw [sameLetters,beq_eq_false_iff_ne]
    intro heq
    obtain ⟨more,hm⟩ := isPrefixOf_iff_prefix.mp hc
    have hl := congrArg String.toList heq
    rw [lower,String.toList_ofList,← hm] at hl; cases hl

namespace Token

section
variable {s : Shape} (hs : s.1.isWord = true)

include hs

lemma isBlank_of_isWord : s.isBlank = false := by
  rw [Shape.isBlank]
  cases hk : s.1 <;> first | rfl | (rw [hk] at hs; cases hs)

lemma not_isBlank_of_isWord : (!s.isBlank) := by
  rw [isBlank_of_isWord hs]; rfl

variable {t : Token}

lemma isBlank_of_shape (ht : t.shape = s) : t.isBlank = false := by
  rw [← ht] at hs
  exact isBlank_of_isWord hs

lemma isFlat_of_isWord : (s.1.isFlat && s.1 != .comma) := by
  cases hk : s.1 <;> first | rfl | (rw [hk] at hs; cases hs)

lemma delim?_of_isWord (ht : t.shape = s) : t.delim? = none := by
  rw [delim?,show t.kind = s.1 from congrArg Prod.fst ht]
  cases hk : s.1 <;> first | rfl | (rw [hk] at hs; cases hs)

variable {w : Token}

lemma trimBlank_before (ht : t.shape = s) (hw : w.shape = (.whitespace," ")) : trimBlank [w,t] = [t] :=
  trimBlank_singleton (isBlank_of_shape hs ht) (forall_isBlank hw) (forall_mem_nil _)

lemma trimBlank_after (ht : t.shape = s) (hw : w.shape = (.whitespace," ")) : trimBlank [t,w] = [t] :=
  trimBlank_singleton (isBlank_of_shape hs ht) (forall_mem_nil _) (forall_isBlank hw)

lemma trimBlank_between {w' : Token} (ht : t.shape = s) (hw : w.shape = (.whitespace," "))
    (hw' : w'.shape = (.whitespace," ")) : trimBlank [w,t,w'] = [t] :=
  trimBlank_singleton (isBlank_of_shape hs ht) (forall_isBlank hw) (forall_isBlank hw')

lemma startsCondition_of_isWord (hn : ∀ {t : Token}, t.shape = s → t.isIdent "not" = false)
    {l : List Shape} {ts : List Token} (hts : ts.map shape = s :: l) :
    Media.startsCondition ts = false := by
  obtain ⟨t,more,rfl,ht,-⟩ := map_eq_cons_iff.mp hts
  have hk : t.kind = s.1 := congrArg Prod.fst ht
  have hb : t.kind ≠ .whitespace := by
    rw [hk]
    rintro hsp
    rw [hsp] at hs; cases hs
  rw [Media.startsCondition,dropBlank_cons hb,head?_cons,Option.any_some,hn ht,hk]
  cases hk : s.1 <;> first | rfl | (rw [hk] at hs; cases hs)

end
end Token

namespace MediaFeature
open Media
variable {name : String} {value : Value} {s : Shape} {t : Token}

lemma keyword_of_shape (hn : IsLowerName name)
    (ht : t.shape = (.ident,identifier name)) : t.keyword = name := by
  rw [keyword,name_of_identifier hn.hasNoNull (kind_of_shape ht) (text_of_shape ht),hn.lower]

lemma feature?_eq_rangeFeature? (file : SourceFile) (fault : Fault) {w : Token} {signs rest : List Token} {c : Comparison}
    (ht : trimBlank (t :: w :: (signs ++ rest)) = t :: w :: (signs ++ rest))
    (hw : w.shape = (.whitespace," ")) (hsg : signs.map shape = c.shapes) :
    feature? file fault (t :: w :: (signs ++ rest)) = rangeFeature? file fault (t :: w :: (signs ++ rest)) := by
  obtain ⟨u,more,rfl,hu⟩ : ∃ u more, signs = u :: more ∧ u.kind = .delim := by
    cases c <;> obtain ⟨u,more,rfl,hu,-⟩ := map_eq_cons_iff.mp hsg <;>
      exact ⟨u,more,rfl,kind_of_shape hu⟩
  rw [feature?,ht]
  dsimp only
  split
  · rw [dropBlank_blank (kind_of_shape hw),cons_append,dropBlank_cons (by rw [hu]; decide)]
    dsimp only
    rw [hu]; rfl
  · rfl

lemma startsCondition_of_name (hn : IsNameable name)
    (hl : startsWith name "--" = false → Text.lower name = name) (hnt : name ≠ "not") {l : List Shape}
    {ts : List Token} (hts : ts.map shape = (.ident,identifier name) :: l) :
    startsCondition ts = false := by
  refine startsCondition_of_isWord rfl (fun {t} ht => ?_) hts
  rw [(Value.readsAs_ident hn).isNot ht]
  exact sameLetters_not hl hnt

lemma readsAs_plain (hn : IsLowerName name) (hnt : name ≠ "not")
    (hvl : value.ReadsAs s) : ReadsAs (plain name value)
      [(.ident,identifier name),(.colon,":"),(.whitespace," "),s] where
  scans := by
    have hc := hn.scans.append scans_colon fun _ _ => rfl
    exact hc.blank (fun _ => rfl) hvl.scans rfl (not_isBlank_of_isWord hvl.isWord)
  flat := by
    have hf := isFlat_of_isWord hvl.isWord
    simp only [all_cons,all_nil,hf]
    rfl
  first := rfl
  last := not_isBlank_of_isWord hvl.isWord
  text := by simp [render,textOf,hvl.text]
  notCondition := startsCondition_of_name hn.toIsNameable (fun _ => hn.lower) hnt
  parsed := by
    intro file fault ts hts
    have htr := trimBlank_of_solid hts rfl (not_isBlank_of_isWord hvl.isWord)
    obtain ⟨t,u,ts,rfl,ht,hu,hts⟩ := exists_pair_of_shapes hts
    obtain ⟨w,v,ts,rfl,hw,hv,hts⟩ := exists_pair_of_shapes hts
    cases map_eq_nil_iff.mp hts
    have hk := keyword_of_shape hn ht
    refine ⟨plain name [Value.ofWord v],?_,?_⟩
    · rw [feature?,htr]
      dsimp only
      rw [kind_of_shape ht,dropBlank_cons (by rw [kind_of_shape hu]; decide)]
      dsimp only
      rw [kind_of_shape hu,trimBlank_before hvl.isWord hv hw,hvl.parsed file hv,hk]; rfl
    · exact Bool.and_eq_true_iff.mpr ⟨beq_self_eq_true name,hvl.same hv⟩

lemma readsAs_boolean (hn : IsNameable name)
    (hl : startsWith name "--" = false → Text.lower name = name) (hnt : name ≠ "not") :
    ReadsAs (boolean name) [(.ident,identifier name)] where
  scans := (Value.readsAs_ident hn).scans
  flat := rfl
  first := rfl
  last := rfl
  text := by simp [render,textOf]
  notCondition := startsCondition_of_name hn hl hnt
  parsed := by
    intro file fault ts hts
    have htr := trimBlank_of_solid hts rfl rfl
    obtain ⟨t,ts,rfl,ht,hts⟩ := map_eq_cons_iff.mp hts
    cases map_eq_nil_iff.mp hts
    have htx := name_of_identifier hn.hasNoNull (kind_of_shape ht) (text_of_shape ht)
    refine ⟨boolean name,?_,beq_self_eq_true name⟩
    rw [feature?,htr]
    dsimp only
    rw [kind_of_shape ht,keyword,htx]
    cases hc : startsWith name "--" with
    | true => rfl
    | false =>
      rw [hl hc]; rfl

lemma featureName?_of_shape (hn : IsLowerName name)
    (ht : t.shape = (.ident,identifier name)) : featureName? [t] = some name := by
  rw [featureName?,kind_of_shape ht,keyword_of_shape hn ht]; rfl

lemma readsAs_range (hn : IsLowerName name) (hnt : name ≠ "not") (c : Comparison)
    (hvl : value.ReadsAs s) : ReadsAs (range name c value)
      ((.ident,identifier name) :: (.whitespace," ") :: (c.shapes ++ [(.whitespace," "),s])) where
  scans := by
    have hwr := not_isBlank_of_isWord hvl.isWord
    have hr := c.scans_shapes.blank (fun _ => rfl) hvl.scans rfl hwr
    exact hn.scans.blank (fun _ => rfl) hr rfl (by cases c <;> rfl)
  flat := by
    have hf := isFlat_of_isWord hvl.isWord
    cases c <;> simp only [Comparison.shapes,all_cons,all_nil,all_append,hf] <;> rfl
  first := rfl
  last := by cases c <;> exact not_isBlank_of_isWord hvl.isWord
  text := by simp [render,textOf,hvl.text,c.toList_symbol]
  notCondition := startsCondition_of_name hn.toIsNameable (fun _ => hn.lower) hnt
  parsed := by
    intro file fault ts hts
    have htr := trimBlank_of_solid hts rfl (by cases c <;> exact not_isBlank_of_isWord hvl.isWord)
    obtain ⟨t,w,ts,rfl,ht,hw,hts⟩ := exists_pair_of_shapes hts
    obtain ⟨signs,ts,rfl,hsg,hts⟩ := map_eq_append_iff.mp hts
    obtain ⟨w',v,ts,rfl,hw',hv,hts⟩ := exists_pair_of_shapes hts
    cases map_eq_nil_iff.mp hts
    have hb := delim?_of_blank hw'
    have hl : ∀ u ∈ [t,w], u.delim? = none := forall_mem_cons.mpr
      ⟨delim?_of_isWord rfl ht,forall_mem_singleton.mpr (delim?_of_blank hw)⟩
    have hr : ∀ u ∈ [w',v], u.delim? = none := forall_mem_cons.mpr
      ⟨hb,forall_mem_singleton.mpr (delim?_of_isWord hvl.isWord hv)⟩
    have hsp : splitComparisons (t :: w :: (signs ++ [w',v])) = ([t,w],[(c,[w',v])]) :=
      splitComparisons_compared hl hsg hb (splitComparisons_of_none hr)
    refine ⟨range name c [Value.ofWord v],?_,?_⟩
    · rw [feature?_eq_rangeFeature? file fault htr hw hsg,rangeFeature?,hsp]
      simp only [map_cons,map_nil,trimBlank_after rfl ht hw,
        trimBlank_before hvl.isWord hv hw',featureName?_of_shape hn ht,hvl.parsed file hv]
      rfl
    · simp [same,hvl.same hv]

lemma readsAs_interval {start stop : Value} {s s' : Shape} (hst : start.ReadsAs s)
    {first : Comparison} (hn : IsLowerName name) {second : Comparison}
    (hsp : stop.ReadsAs s') (hsm : first.isAscending = second.isAscending)
    (hfr : first ≠ .equal) (hsc : second ≠ .equal) (hnt : start.startsWithNot = false) :
    ReadsAs (interval start first name second stop) (s :: (.whitespace," ") :: (first.shapes ++ (.whitespace," ") ::
        (.ident,identifier name) :: (.whitespace," ") :: (second.shapes ++ [(.whitespace," "),s']))) where
  scans := by
    have hr := second.scans_shapes.blank (fun _ => rfl) hsp.scans rfl (not_isBlank_of_isWord hsp.isWord)
    have hm := hn.scans.blank (fun _ => rfl) hr rfl (by cases second <;> rfl)
    have hl := first.scans_shapes.blank (fun _ => rfl) hm rfl rfl
    exact hst.scans.blank (fun _ => rfl) hl rfl (by cases first <;> rfl)
  flat := by
    have hf := isFlat_of_isWord hst.isWord
    have hf' := isFlat_of_isWord hsp.isWord
    cases first <;> cases second <;>
      simp only [Comparison.shapes,all_cons,all_nil,all_append,hf,hf'] <;> rfl
  first := not_isBlank_of_isWord hst.isWord
  last := by cases first <;> cases second <;> exact not_isBlank_of_isWord hsp.isWord
  text := by simp [render,textOf,hst.text,hsp.text,first.toList_symbol,second.toList_symbol]
  notCondition := by
    intro ts hts
    refine startsCondition_of_isWord hst.isWord (fun {t} ht => ?_) hts
    rw [hst.isNot ht]
    exact hnt
  parsed := by
    intro file fault ts hts
    have htr := trimBlank_of_solid hts (not_isBlank_of_isWord hst.isWord)
      (by cases first <;> cases second <;> exact not_isBlank_of_isWord hsp.isWord)
    obtain ⟨v,w,ts,rfl,hv,hw,hts⟩ := exists_pair_of_shapes hts
    obtain ⟨signs,ts,rfl,hsg,hts⟩ := map_eq_append_iff.mp hts
    obtain ⟨w',t,ts,rfl,hw',ht,hts⟩ := exists_pair_of_shapes hts
    obtain ⟨x,ts,rfl,hx,hts⟩ := map_eq_cons_iff.mp hts
    obtain ⟨signs',ts,rfl,hsg',hts⟩ := map_eq_append_iff.mp hts
    obtain ⟨x',v',ts,rfl,hx',hv',hts⟩ := exists_pair_of_shapes hts
    cases map_eq_nil_iff.mp hts
    have hb := delim?_of_blank hw'
    have hb' := delim?_of_blank hx'
    have hl : ∀ u ∈ [v,w], u.delim? = none := forall_mem_cons.mpr
      ⟨delim?_of_isWord hst.isWord hv,forall_mem_singleton.mpr (delim?_of_blank hw)⟩
    have hm : ∀ u ∈ [w',t,x], u.delim? = none := forall_mem_cons.mpr ⟨hb,forall_mem_cons.mpr
        ⟨delim?_of_isWord rfl ht,forall_mem_singleton.mpr (delim?_of_blank hx)⟩⟩
    have hr : ∀ u ∈ [x',v'], u.delim? = none := forall_mem_cons.mpr
      ⟨hb',forall_mem_singleton.mpr (delim?_of_isWord hsp.isWord hv')⟩
    have hi := splitComparisons_compared hm hsg' hb' (splitComparisons_of_none hr)
    have hspl : splitComparisons (v :: w :: (signs ++ w' :: t :: x :: (signs' ++ [x',v']))) =
        ([v,w],[(first,[w',t,x]),(second,[x',v'])]) := splitComparisons_compared hl hsg hb hi
    have hch : (first.isAscending != second.isAscending || first == .equal || second == .equal) = false := by
      simp [hsm,hfr,hsc]
    refine ⟨interval [Value.ofWord v] first name second [Value.ofWord v'],?_,?_⟩
    · rw [feature?_eq_rangeFeature? file fault htr hw hsg,rangeFeature?,hspl]
      simp only [map_cons,map_nil,trimBlank_after hst.isWord hv hw,
        trimBlank_between rfl ht hw' hx,trimBlank_before hsp.isWord hv' hx',
        featureName?_of_shape hn ht,hst.parsed file hv,hsp.parsed file hv',hch]
      rfl
    · simp [same,hst.same hv,hsp.same hv']

lemma exists_readsAs {f : MediaFeature} (hf : f.IsSound) (h : f.isSimple) : ∃ l, f.ReadsAs l := by
  cases hf with
  | plain hn hv =>
    obtain ⟨hnt,hsn⟩ := Bool.and_eq_true_iff.mp h
    obtain ⟨s,hs⟩ := Value.exists_readsAs hv hsn
    exact ⟨_,readsAs_plain hn (bne_iff_ne.mp hnt) hs⟩
  | boolean hn hl => exact ⟨_,readsAs_boolean hn hl (bne_iff_ne.mp h)⟩
  | range hn hv =>
    obtain ⟨hnt,hsn⟩ := Bool.and_eq_true_iff.mp h
    obtain ⟨s,hs⟩ := Value.exists_readsAs hv hsn
    exact ⟨_,readsAs_range hn (bne_iff_ne.mp hnt) _ hs⟩
  | interval hn hst hsp hsm hfr hsc hnt =>
    obtain ⟨h,hsn'⟩ := Bool.and_eq_true_iff.mp h
    obtain ⟨-,hsn⟩ := Bool.and_eq_true_iff.mp h
    obtain ⟨s,hs⟩ := Value.exists_readsAs hst hsn
    obtain ⟨s',hs'⟩ := Value.exists_readsAs hsp hsn'
    exact ⟨_,readsAs_interval hs hn hs' hsm hfr hsc hnt⟩

end MediaFeature
end Css
