import Css.Proofs.Selector.Reading

/-!
# Values from tokens

What the parser of values makes of tokens that follow each other without a gap.
-/
namespace Css
open List Text Token Bool Written

lemma Token.Adjoin.of_append {ts us : List Token} {start stop : Nat}
    (h : Adjoin start (ts ++ us) stop) : ∃ middle, Adjoin start ts middle ∧ Adjoin middle us stop := by
  induction ts generalizing start with
  | nil => exact ⟨start,.nil,h⟩
  | cons t ts ih =>
    cases h with
    | cons hs h =>
      obtain ⟨middle,hts,hus⟩ := ih h
      exact ⟨middle,.cons hs hts,hus⟩

namespace Value

def endsRange (s : Shape) : Bool := !isRangePart ⟨s.1,s.2,.none⟩

def IsRead (ends : Shape → Bool) (xs : List Component) (l : List Shape) : Prop :=
  ∀ (file : SourceFile) (dashed : Bool) (stack : List Frame) (items : List Component)
    {start stop : Nat} {ts : List Token} (rest : List Token), ts.map shape = l → Adjoin start ts stop →
      rest.head?.all (fun t => ends t.shape) = true → parseFrom file dashed 0 stack items start (ts ++ rest) =
          parseFrom file dashed 0 stack (xs.reverse ++ items) stop rest

def whatever (_ : Shape) : Bool := true

variable {ends ends' : Shape → Bool} {xs ys : List Component} {l l' : List Shape}

lemma IsRead.mono (h : IsRead whatever xs l) : IsRead ends xs l := by
  intro file dashed stk items start stop ts rest hts ha _
  exact h file dashed stk items rest hts ha (by cases rest <;> rfl)

lemma IsRead.append_of_head (h : IsRead ends xs l) (h' : IsRead ends' ys l')
    (he : ∀ second rest : List Token, second.map shape = l' → (second ++ rest).head?.all (fun t => ends t.shape)) :
    IsRead ends' (xs ++ ys) (l ++ l') := by
  intro file dashed stack items start stop ts rest hts ha hr
  obtain ⟨first,second,rfl,hf,hs⟩ := map_eq_append_iff.mp hts
  obtain ⟨middle,hb,haf⟩ := ha.of_append
  rw [append_assoc,h file dashed stack items _ hf hb (he second rest hs),
    h' file dashed stack _ rest hs haf hr,reverse_append,append_assoc]

lemma IsRead.append (h : IsRead ends xs l) (h' : IsRead ends' ys l')
    (he : l'.head?.any ends) : IsRead ends' (xs ++ ys) (l ++ l') := by
  refine h.append_of_head h' fun second rest hs => ?_
  subst hs
  cases second with
  | nil => cases he
  | cons t second => exact he

lemma IsRead.append_any (h : IsRead whatever xs l) (h' : IsRead ends' ys l') : IsRead ends' (xs ++ ys) (l ++ l') :=
  h.append_of_head h' fun second rest _ => by cases second ++ rest <;> rfl

lemma isRead_nil : IsRead ends [] [] := by
  intro file dashed stk items start stop ts rest hts ha _
  cases map_eq_nil_iff.mp hts
  cases ha
  rfl

lemma separate_self (n : Nat) (items : List Component) : separate n n items = items := by
  rw [separate,decide_eq_false (Nat.lt_irrefl n)]; rfl

/-- A token that is a component of its own. Only an identifier depends on what follows it. -/
lemma isRead_of_leaf {c : Component} {kind : Kind} {text : String}
    (hk : kind.isLeaf ∧ kind.isBarred = false ∧ kind.isNumeric = false ∧ kind ≠ .whitespace)
    (hr : kind = .ident → ∀ (t : Token) (rest : List Token),
      rest.head?.all (fun t => ends t.shape) → range? t rest = none)
    (hc : ∀ (file : SourceFile) (t : Token), t.shape = (kind,text) → leaf? file t none = some c) :
    IsRead ends [c] [(kind,text)] := by
  intro file dashed stk items start stop ts rest hts ha he
  obtain ⟨t,us,rfl,ht,hus⟩ := map_eq_cons_iff.mp hts
  cases map_eq_nil_iff.mp hus
  cases ha with
  | cons hs hn =>
    cases hn
    obtain rfl : t.kind = kind := kind_of_shape ht
    have hn : leafRange? t rest = none := by
      unfold leafRange?
      split
      · exact hr ‹_› t rest he
      · rfl
    rw [singleton_append,parseFrom_leaf hk.1 hk.2.1,hn,addLeaf,hs,separate_self,if_neg hk.2.2.2,hc file t ht,hk.2.2.1]
    rfl

lemma isRead_colon : IsRead whatever [.colon] [(.colon,":")] :=
  isRead_of_leaf (by decide) Kind.noConfusion fun file t ht => by
    rw [leaf?.eq_def,kind_of_shape ht]

lemma isRead_comma : IsRead whatever [.comma] [(.comma,",")] :=
  isRead_of_leaf (by decide) Kind.noConfusion fun file t ht => by
    rw [leaf?.eq_def,kind_of_shape ht]

lemma isRead_semicolon : IsRead whatever [.semicolon] [(.semicolon,";")] :=
  isRead_of_leaf (by decide) Kind.noConfusion fun file t ht => by
    rw [leaf?.eq_def,kind_of_shape ht]

lemma isRead_delim (c : Char) : IsRead whatever [.delim c] [(.delim,String.ofList [c])] :=
  isRead_of_leaf (by decide) Kind.noConfusion fun file t ht => by
    rw [leaf?.eq_def,kind_of_shape ht,delim?_of_shape ht]; rfl

lemma isRead_string {s : String} (h : Written.HasNoNull s.toList) : IsRead whatever [.string s] [(.string,string s)] :=
  isRead_of_leaf (by decide) Kind.noConfusion fun file t ht => by
    rw [leaf?.eq_def,kind_of_shape ht,stringValue_of_string h (text_of_shape ht)]

lemma isRead_hash {name : String} (h : Written.HasNoNull name.toList) :
    IsRead whatever [hashComponent name] [(.idHash,"#" ++ identifier name)] :=
  isRead_of_leaf (by decide) Kind.noConfusion fun file t ht => by
    have hk := kind_of_shape ht
    rw [leaf?.eq_def,hk,name_of_hash h hk (text_of_shape ht)]

lemma isRead_ident {name : String} (h : Written.HasNoNull name.toList) :
    IsRead endsRange [.ident name] [(.ident,identifier name)] := by
  refine isRead_of_leaf (by decide) (fun _ t rest hr => ?_) fun file t ht => ?_
  · have hp : rangeParts t.span.stop rest = [] := by
      cases rest with
      | nil => rfl
      | cons u rest =>
        have hu : isRangePart u = false := (Bool.not_eq_true' _).mp hr
        rw [rangeParts,hu,Bool.and_false]; rfl
    rw [range?,hp]
    split <;> rfl
  · have hk := kind_of_shape ht
    rw [leaf?.eq_def,hk,name_of_identifier h hk (text_of_shape ht)]

lemma IsRead.blank (h : IsRead ends xs l) (he : ends (.whitespace," "))
    (hl : xs.getLast?.any (fun c => !c.isWhitespace)) :
    IsRead whatever (xs ++ [.whitespace]) (l ++ [(.whitespace," ")]) := by
  intro file dashed stack items start stop ts rest hts ha hr
  obtain ⟨first,second,rfl,hf,hs⟩ := map_eq_append_iff.mp hts
  obtain ⟨w,us,rfl,hw,hus⟩ := map_eq_cons_iff.mp hs
  cases map_eq_nil_iff.mp hus
  obtain ⟨middle,hb,haf⟩ := ha.of_append
  have hh : ([w] ++ rest).head?.all (fun t => ends t.shape) := by
    change ends w.shape = true
    rw [hw]
    exact he
  have hp : pushBlank (xs.reverse ++ items) = .whitespace :: (xs.reverse ++ items) := by
    cases hxs : xs.reverse with
    | nil =>
      rw [reverse_eq_nil_iff.mp hxs] at hl; cases hl
    | cons c cs =>
      rw [← head?_reverse,hxs] at hl
      cases c with
      | whitespace => cases hl
      | _ => rfl
  cases haf with
  | cons hst hn =>
    cases hn
    have hsp : parseFrom file dashed 0 stack (xs.reverse ++ items) middle (w :: rest) =
        parseFrom file dashed 0 stack (pushBlank (xs.reverse ++ items)) w.span.stop rest := by
      have hk := kind_of_shape hw
      rw [parseFrom_leaf (by rw [hk]; rfl) (by rw [hk]; rfl),leafRange?,addLeaf,hst,separate_self,hk]
      rfl
    rw [append_assoc,h file dashed stack items _ hf hb hh,singleton_append,hsp,hp,reverse_append]
    rfl

def isTrimmed (xs : List Component) : Bool :=
  xs.head?.all (fun c => !c.isWhitespace) && xs.getLast?.all (fun c => !c.isWhitespace)

lemma isTrimmed_of_ends (hf : xs.head?.any (fun c => !c.isWhitespace))
    (hl : xs.getLast?.any (fun c => !c.isWhitespace)) : isTrimmed xs := by
  rw [isTrimmed,and_eq_true]
  constructor
  · cases hh : xs.head? with
    | none => rfl
    | some c =>
      rw [hh] at hf
      exact hf
  · cases he : xs.getLast? with
    | none => rfl
    | some c =>
      rw [he] at hl
      exact hl

lemma dropWhile_isWhitespace (h : xs.head?.all (fun c => !c.isWhitespace)) :
    xs.dropWhile Component.isWhitespace = xs := by
  cases xs with
  | nil => rfl
  | cons c xs =>
    have hc : c.isWhitespace = false := (not_eq_true' _).mp h
    exact dropWhile_cons_of_neg (by rw [hc]; exact false_ne_true)

lemma trim_of_isTrimmed (h : isTrimmed xs) : trim xs = xs := by
  obtain ⟨hf,hl⟩ := (and_eq_true _ _).mp h
  rw [← head?_reverse] at hl
  rw [trim,dropWhile_isWhitespace hf,dropWhile_isWhitespace hl,reverse_reverse]

lemma IsRead.group (h : IsRead ends xs l) (htr : isTrimmed xs) {opening closing : Shape}
    (ho : opening.1 = .function ∨ opening.1 = .leftBracket ∨ opening.1 = .leftBrace)
    (hc : opening.1.closing? = some closing.1) (he : ends closing) {c : Component}
    (hce : ∀ (file : SourceFile) (dashed : Bool) (t : Token) (pre : List Component),
      t.shape = opening → Frame.close file dashed ⟨t,pre⟩ xs = .ok c) :
    IsRead whatever [c] (opening :: (l ++ [closing])) := by
  intro file dashed stack items start stop ts rest hts had hr
  obtain ⟨t,post,rfl,ht,ha⟩ := map_eq_cons_iff.mp hts
  obtain ⟨inside,post,rfl,hi,ha⟩ := map_eq_append_iff.mp ha
  obtain ⟨u,post,rfl,hu,ha⟩ := map_eq_cons_iff.mp ha
  cases map_eq_nil_iff.mp ha
  cases had with
  | cons hs had =>
    obtain ⟨middle,hb,ha⟩ := had.of_append
    have hh : (u :: rest).head?.all (fun t => ends t.shape) := by
      change ends u.shape = true
      rw [hu]
      exact he
    have hos : t.kind = opening.1 := congrArg Prod.fst ht
    have hop : t.kind.opens := by rcases ho with h | h | h <;> rw [hos,h] <;> rfl
    cases ha with
    | cons hm hn =>
      cases hn
      have hcl : u.kind = closing.1 := congrArg Prod.fst hu
      have hmt : t.kind.closing? = some u.kind := by rw [hos,hcl,hc]
      have hk : u.kind.closes := Kind.closes_of_closing? hmt
      have hcn : trim xs.reverse.reverse = xs := by rw [reverse_reverse,trim_of_isTrimmed htr]
      have htk : t :: (inside ++ [u]) ++ rest = t :: (inside ++ u :: rest) := by simp
      rw [htk,parseFrom_opening hop,hs,separate_self,h file dashed _ [] _ hi hb hh,append_nil,
        parseFrom_closing hk hmt,hm,separate_self,hcn,hce file dashed t items ht]
      rfl

lemma separate_nil (stop start : Nat) : separate stop start [] = [] := by
  rw [separate,isEmpty_nil,Bool.not_true,Bool.and_false]; rfl

lemma pushNumeric_nil (stop : Nat) (t : Token) (c : Component) : pushNumeric stop t c [] = [c] := by
  rw [pushNumeric,head?_nil,Option.any_none,Bool.and_false]; rfl

lemma parse_eq_parseFrom (file : SourceFile) (dashed : Bool) (start : Nat)
    (tokens : List Token) : parse file dashed tokens = parseFrom file dashed 0 [] [] start tokens := by
  rw [parse]
  cases tokens with
  | nil => rw [parseFrom,parseFrom]
  | cons t rest =>
    rw [parseFrom.eq_def,parseFrom.eq_def]
    simp only [separate_nil,pushNumeric_nil]

lemma IsRead.parse_scanFrom (h : IsRead ends xs l) (ht : isTrimmed xs) {s : List Char}
    (hs : shapes s = l) (file : SourceFile) (dashed : Bool) (offset : Nat) :
    parse file dashed (scanFrom offset s) = .ok xs := by
  have hsh : (scanFrom offset s).map shape = l := by rw [map_shape_scanFrom,hs]
  have hr := h file dashed [] [] [] hsh (adjoin_scanFrom offset s) rfl
  rw [append_nil,append_nil] at hr
  rw [parse_eq_parseFrom file dashed offset,hr,parseFrom,reverse_reverse,trim_of_isTrimmed ht]

end Value
end Css
