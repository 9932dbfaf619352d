import Css.Proofs.Selector.Grammar
import Mathlib.Data.List.Chain
import Mathlib.Data.List.Infix

/-!
# Selectors out of the scope of a file, read in place

The names in a selector may be taken out of the scope of the file, a whole selector or one part at a
time.
-/
namespace Css
open List Option
namespace Part

def inPlace : Part → List Part
  | global selector => inPlaceAll selector
  | part => [part]
where
  inPlaceAll : List Part → List Part
    | [] => []
    | part :: parts => part.inPlace ++ inPlaceAll parts

def isGlobal : Part → Bool
  | global _ => true
  | _ => false

lemma inPlace_of_not_global {p : Part} (h : p.isGlobal = false) : p.inPlace = [p] := by
  cases p with
  | global s => cases h
  | _ => rfl

end Part

namespace Selector

def inPlace (s : Selector) : Selector := Part.inPlace.inPlaceAll s

lemma inPlace_nil : inPlace [] = [] := rfl

lemma inPlace_cons (p : Part) (s : Selector) : inPlace (p :: s) = p.inPlace ++ inPlace s := rfl

lemma inPlace_singleton (p : Part) : inPlace [p] = p.inPlace := append_nil _

lemma inPlace_append (s t : Selector) : inPlace (s ++ t) = inPlace s ++ inPlace t := by
  induction s with
  | nil => rfl
  | cons p s ih => rw [cons_append,inPlace_cons,ih,inPlace_cons,append_assoc]

variable {s : Selector}

lemma mem_inPlace {q : Part} : q ∈ inPlace s ↔ ∃ p ∈ s, q ∈ p.inPlace := by
  induction s with
  | nil => simp [inPlace_nil]
  | cons p s ih => simp [inPlace_cons,ih]

def closes (s : Selector) : Bool := s.getLast?.any fun p => !p.isCombinator

lemma closes_append {t : Selector} (h : t.closes) (s : Selector) : closes (s ++ t) := by
  cases t with
  | nil => cases h
  | cons p t => rwa [closes,getLast?_append_cons]

lemma closes_of_append {t : Selector} (h : closes (s ++ t)) (ht : t ≠ []) : t.closes := by
  cases t with
  | nil => exact absurd rfl ht
  | cons p t => rwa [closes,getLast?_append_cons] at h

lemma opens_iff : s.opens ↔ ∃ p, s.head? = some p ∧ p.isCombinator = false := by
  cases s with
  | nil => simp [opens]
  | cons p s => simp [opens]

lemma closes_iff : s.closes ↔ ∃ p, s.getLast? = some p ∧ p.isCombinator = false := by
  rw [closes,Option.any_eq_true]
  exact exists_congr fun p => and_congr_right fun _ => Bool.not_eq_true' _ ▸ Iff.rfl

end Selector

def Part.IsSolid (p : Part) : Prop :=
  p.isCombinator = true ∨ Selector.opens p.inPlace = true ∧ Selector.closes p.inPlace = true

namespace Selector
variable {s : Selector}

lemma isSolid_of_not_global {p : Part} (h : p.isGlobal = false) : p.IsSolid := by
  cases hp : p.isCombinator with
  | true => exact .inl hp
  | false =>
    refine .inr ?_
    rw [Part.inPlace_of_not_global h,opens_iff,closes_iff]
    exact ⟨⟨p,rfl,hp⟩,p,rfl,hp⟩

lemma exists_head?_inPlace (hs : ∀ p ∈ s, p.IsSolid) {q : Part} (hq : q ∈ s.inPlace.head?) :
    ∃ p ∈ s.head?, p.isCombinator = q.isCombinator := by
  cases s with
  | nil => cases hq
  | cons p s =>
    refine ⟨p,rfl,?_⟩
    rw [inPlace_cons] at hq
    rcases hs p mem_cons_self with hp | ⟨ho,_⟩
    · cases p with
      | combinator c =>
        cases hq
        rfl
      | _ => cases hp
    · obtain ⟨r,hr,hn⟩ := opens_iff.mp ho
      rw [head?_append,hr] at hq; cases hq
      cases p with
      | combinator c => cases ho
      | _ => exact hn.symm

lemma exists_getLast?_inPlace (hs : ∀ p ∈ s, p.IsSolid) {q : Part}
    (hq : q ∈ s.inPlace.getLast?) : ∃ p ∈ s.getLast?, p.isCombinator = q.isCombinator := by
  rcases eq_nil_or_concat s with rfl | ⟨s,p,rfl⟩
  · cases hq
  · rw [concat_eq_append] at hq hs ⊢
    refine ⟨p,getLast?_concat,?_⟩
    rw [inPlace_append,inPlace_singleton] at hq
    rcases hs p (by simp) with hp | ⟨ho,hc⟩
    · cases p with
      | combinator c =>
        rw [Part.inPlace_of_not_global rfl,getLast?_concat] at hq; cases hq
        rfl
      | _ => cases hp
    · obtain ⟨r,hr,hn⟩ := closes_iff.mp hc
      rw [getLast?_append,hr] at hq; cases hq
      cases p with
      | combinator c => cases ho
      | _ => exact hn.symm

lemma opens_inPlace (hs : ∀ p ∈ s, p.IsSolid) (h : s.opens) : s.inPlace.opens := by
  cases s with
  | nil => cases h
  | cons p s =>
    rcases hs p mem_cons_self with hp | ⟨ho,_⟩
    · rw [opens,head?_cons,any_some,hp] at h; cases h
    · exact opens_append ho (inPlace s)

lemma closes_inPlace (hs : ∀ p ∈ s, p.IsSolid) (h : s.closes) : s.inPlace.closes := by
  rcases eq_nil_or_concat s with rfl | ⟨s,p,rfl⟩
  · cases h
  · rw [concat_eq_append] at h hs ⊢
    rw [inPlace_append,inPlace_singleton]
    rcases hs p (by simp) with hp | ⟨_,hc⟩
    · rw [closes,getLast?_concat,any_some,hp] at h; cases h
    · exact closes_append hc (inPlace s)

def Apart (p q : Part) : Prop := p.isCombinator = true → q.isCombinator = false

def TypeBehind (p q : Part) : Prop := q.isType = true → p.isCombinator = true

/-- A relation of neighbours that tells apart combinators, not which ones, and does not forbid other
parts behind them. -/
structure IsRegular (R : Part → Part → Prop) : Prop where
  left : ∀ {p p' q : Part}, p.isCombinator = p'.isCombinator → R p q → R p' q
  right : ∀ {p : Part} {c d : Combinator}, R p (.combinator c) → R p (.combinator d)
  behind : ∀ {c : Combinator} {q : Part}, q.isCombinator = false → R (.combinator c) q

lemma isRegular_apart : IsRegular Apart where
  left h hR hp := hR (h.trans hp)
  right hR hp := hR hp
  behind h _ := h

lemma isRegular_typeBehind : IsRegular TypeBehind where
  left h hR hq := h.symm.trans (hR hq)
  right _ hq := by cases hq
  behind _ _ := rfl

def Stays (p q : Part) : Prop := isSwitch p = true → ∀ c, q = .combinator c → c = .descendant

section
variable {relative : Bool} {out parts : List Part}

lemma inPlace_inScope (isGlobal : Bool) (p : Part) : (inScope isGlobal p).inPlace = p.inPlace := by
  cases p <;> cases isGlobal <;> rfl

lemma isSolid_inScope {p : Part} (h : p.IsSolid) (isGlobal : Bool) : (inScope isGlobal p).IsSolid := by
  rw [Part.IsSolid,isCombinator_inScope,inPlace_inScope]
  exact h

lemma Resolves.mem (h : Resolves relative s out parts) :
    ∀ q ∈ s, q ∈ out ∨ ∃ p ∈ parts, ∃ isGlobal, q = inScope isGlobal p := by
  have hcn {q r : Part} {parts : List Part} (h : ∃ p ∈ parts, ∃ isGlobal, q = inScope isGlobal p) :
      ∃ p ∈ r :: parts, ∃ isGlobal, q = inScope isGlobal p := by
    obtain ⟨p,hp,hsc⟩ := h
    exact ⟨p,mem_cons_of_mem r hp,hsc⟩
  intro q hq
  induction h with
  | done heq =>
    rw [heq] at hq
    exact .inl (mem_reverse.mp hq)
  | part isGlobal _ _ ih =>
    rcases ih with ho | hr
    · exact (mem_cons.mp ho).symm.imp_right fun heq => ⟨_,mem_cons_self,isGlobal,heq⟩
    · exact .inr (hcn hr)
  | both _ _ _ ih => exact ih.imp_right fun h => hcn (hcn h)
  | blank _ ih => exact ih.imp (mem_cons_of_mem _) hcn
  | switch _ _ _ _ ih => exact ih.imp_right hcn

lemma Resolves.closes (h : Resolves relative s out parts) (ho : parts = [] → Selector.closes out.reverse)
    (hp : parts ≠ [] → Selector.closes parts) : s.closes := by
  have hn {q : Part} {rest out : List Part} (h : q :: rest = []) : Selector.closes out.reverse :=
    absurd h (cons_ne_nil q rest)
  induction h with
  | done heq =>
    rw [heq]
    exact ho rfl
  | @part p out rest isGlobal _ _ ih =>
    have hcl := hp (cons_ne_nil p rest)
    refine ih ?_ (closes_of_append (s := [p]) hcl)
    rintro rfl
    rw [Selector.closes,reverse_cons,getLast?_concat,any_some,isCombinator_inScope]
    exact hcl
  | @both p out rest _ _ _ ih =>
    have hcl := hp (cons_ne_nil _ _)
    refine ih ?_ (closes_of_append (s := [p,.combinator .descendant]) hcl)
    rintro rfl
    cases hcl
  | @blank p _ _ _ _ ih | @switch p _ _ _ _ _ _ _ ih => exact ih hn (closes_of_append (s := [p]) (hp (cons_ne_nil _ _)))

section
variable {R : Part → Part → Prop}

lemma isChain_cut {s t u : Selector} (h : List.IsChain R (inPlace (s ++ (t ++ u))))
    (hl : ∀ p ∈ s.inPlace.getLast?, ∀ q ∈ u.inPlace.head?, R p q) :
    List.IsChain R (inPlace (s ++ u)) := by
  rw [inPlace_append] at h ⊢
  have hu := h.right_of_append
  rw [inPlace_append] at hu
  exact h.left_of_append.append hu.right_of_append hl

variable (hR : IsRegular R)

include hR

lemma isChain_without_switch {p : Part} {rest : List Part}
    (hp : isSwitch p) (ho : ∀ p ∈ out, p.IsSolid) (hrs : ∀ p ∈ rest, p.IsSolid)
    (hl : ∀ q ∈ out.head?, ∀ r ∈ rest.head?, q.isCombinator → r.isCombinator → ∀ c d, R (.combinator c) (.combinator d))
    (h : List.IsChain R (inPlace (out.reverse ++ p :: rest))) :
    List.IsChain R (inPlace (out.reverse ++ rest)) := by
  have hpl : p.inPlace = [p] := by
    cases p with
    | global s => cases hp
    | _ => rfl
  have hn : p.isCombinator = false := by
    cases p with
    | combinator c => cases hp
    | _ => rfl
  refine isChain_cut (t := [p]) h fun x hx y hy => ?_
  rw [inPlace_append,inPlace_cons,hpl,singleton_append] at h
  have hy' := (isChain_cons.mp h.right_of_append).1 y hy
  have hs : ∀ p ∈ out.reverse, p.IsSolid := fun p hp => ho p (mem_reverse.mp hp)
  obtain ⟨q,hq,hqx⟩ := exists_getLast?_inPlace hs hx
  obtain ⟨r,hr,hry⟩ := exists_head?_inPlace hrs hy
  rw [getLast?_reverse] at hq
  cases hx' : x.isCombinator with
  | false => exact hR.left (hn.trans hx'.symm) hy'
  | true =>
    cases x with
    | combinator c =>
      cases hc : y.isCombinator with
      | false => exact hR.behind hc
      | true =>
        cases y with
        | combinator d => exact hl q hq r hr hqx hry c d
        | _ => cases hc
    | _ => cases hx'

/-- Neighbours that are allowed stay so, if combinators may follow each other or no switch is followed by
one other than a blank. -/
lemma Resolves.isChain (h : Resolves relative s out parts)
    (hs : (∀ c d, R (.combinator c) (.combinator d)) ∨ parts.IsChain Stays)
    (ho : ∀ p ∈ out, p.IsSolid) (hpr : ∀ p ∈ parts, p.IsSolid)
    (hch : List.IsChain R (inPlace (out.reverse ++ parts))) : List.IsChain R s.inPlace := by
  induction h with
  | done heq => rwa [append_nil,← heq] at hch
  | @part p out rest isGlobal _ _ ih =>
    obtain ⟨hp,hrs⟩ := forall_mem_cons.mp hpr
    refine ih (hs.imp_right List.IsChain.tail) ?_ hrs ?_
    · exact forall_mem_cons.mpr ⟨isSolid_inScope hp isGlobal,ho⟩
    · rwa [reverse_cons,append_assoc,singleton_append,inPlace_append,inPlace_cons,
        inPlace_inScope,← inPlace_cons,← inPlace_append]
  | @both p out rest hp ha _ ih =>
    obtain ⟨-,hrs⟩ := forall_mem_cons.mp (forall_mem_cons.mp hpr).2
    refine ih (hs.imp_right fun h => h.tail.tail) ho hrs ?_
    refine isChain_cut (t := [p,.combinator .descendant]) hch fun x hx y hy => ?_
    -- What is before the switch is a combinator, like the one that goes with the switch.
    have hb : R (.combinator .descendant) y := by
      rw [inPlace_append,inPlace_cons] at hch
      exact (isChain_cons.mp hch.right_of_append.right_of_append).1 y hy
    have hsl : ∀ p ∈ out.reverse, p.IsSolid := fun p hp => ho p (mem_reverse.mp hp)
    obtain ⟨q,hq,hqx⟩ := exists_getLast?_inPlace hsl hx
    rw [getLast?_reverse] at hq
    have hcm := (Option.all_eq_true _ _).mp ha q hq
    exact hR.left (p := .combinator .descendant) (hcm.symm.trans hqx) hb
  | @blank p c out rest _ ih =>
    refine ih (hs.imp_right List.IsChain.tail) (forall_mem_cons.mp ho).2 (forall_mem_cons.mp hpr).2 ?_
    rw [reverse_cons,append_assoc] at hch
    refine isChain_cut (t := [.combinator .descendant,p]) hch fun x hx y hy => ?_
    cases hy
    rw [inPlace_append,isChain_append] at hch
    exact hR.right (hch.2.2 x hx (.combinator .descendant) rfl)
  | @switch p q out rest hp hq _ _ ih =>
    obtain ⟨-,hrs⟩ := forall_mem_cons.mp hpr
    refine ih (hs.imp_right List.IsChain.tail) ho hrs ?_
    refine isChain_without_switch hR hp ho hrs ?_ hch
    intro r hr q' hq' hrc hqc
    cases Option.some.inj hq'
    rcases hs with hal | hs
    · exact hal
    · cases q with
      | combinator c =>
        obtain rfl := (isChain_cons_cons.mp hs).1 hp c rfl
        have hn := hq rfl
        rw [Option.mem_def.mp hr,Option.all_some,hrc] at hn; cases hn
      | _ => cases hqc

end
end
end Selector
end Css

namespace Css.Selector
open List Token Bool

def isScopeName (t : Token) : Bool := t.keyword == "global" || t.keyword == "local"

/-- Whether the first tokens are a switch of scope, and a combinator other than a blank follows it. -/
def doublesCombinator : List Token → Bool
  | t :: u :: rest =>
    (t.kind == .colon && u.kind == .ident && isScopeName u) && ((dropBlank rest).head?.bind combinator?).isSome
  | _ => false

def endsSimple (t : Token) : Bool :=
  [.ident,.idHash,.rightParen,.rightBracket].contains t.kind || t.isDelim '*' || t.isDelim '&'

/-- Whether tokens may start with a type or universal selector, behind switches of scope. -/
def opensWithType : List Token → Bool
  | [] => false
  | t :: rest =>
    t.kind == .ident || t.isDelim '*' || t.kind == .colon && rest.head?.any fun u =>
      (u.kind == .ident || u.kind == .function) && isScopeName u

/-- Whether the second and third token open a selector in parentheses that switches the scope, and that
is put behind the simple selector before it although it may start with a type or universal selector. -/
def misplacesType : List Token → Bool
  | t :: u :: v :: rest =>
    (endsSimple t && u.kind == .colon && v.kind == .function && isScopeName v) && opensWithType (dropBlank rest)
  | _ => false

def KeepsCombinators (modules : Bool) (source : List Token) : Prop :=
  modules = true → ∀ rest ∈ source.tails, doublesCombinator rest = false

/-- No selector with a scope of its own puts a type or universal selector behind something. -/
def KeepsTypes (modules : Bool) (source : List Token) : Prop :=
  modules = true → ∀ rest ∈ source.tails, misplacesType rest = false

variable {ts : List Token}

lemma dropBlank_append_of_ne_nil (h : dropBlank ts ≠ []) (more : List Token) :
    dropBlank (ts ++ more) = dropBlank ts ++ more := by
  rw [dropBlank,dropWhile_append,if_neg]
  · rfl
  · exact fun he => h (isEmpty_iff.mp he)

lemma opensWithType_append (h : opensWithType (dropBlank ts)) (more : List Token) :
    opensWithType (dropBlank (ts ++ more)) := by
  cases hb : dropBlank ts with
  | nil =>
    rw [hb] at h; cases h
  | cons t rest =>
    rw [dropBlank_append_of_ne_nil (hb ▸ cons_ne_nil t rest),hb]
    rw [hb] at h
    cases rest with
    | nil =>
      simp only [opensWithType,head?_nil,Option.any_none,Bool.and_false,Bool.or_false] at h
      rw [cons_append,opensWithType,h]; rfl
    | cons u rest => exact h

lemma doublesCombinator_append (h : doublesCombinator ts) (more : List Token) : doublesCombinator (ts ++ more) := by
  unfold doublesCombinator at h
  split at h
  · rename_i t u rest
    obtain ⟨hs,hc⟩ := and_eq_true_iff.mp h
    have hne : dropBlank rest ≠ [] := by
      intro hn
      rw [hn] at hc; cases hc
    rw [cons_append,cons_append,doublesCombinator,dropBlank_append_of_ne_nil hne,hs,head?_append_of_ne_nil _ hne,hc]
    rfl
  · cases h

lemma misplacesType_append (h : misplacesType ts) (more : List Token) : misplacesType (ts ++ more) := by
  unfold misplacesType at h
  split at h
  · obtain ⟨ho,ht⟩ := and_eq_true_iff.mp h
    rw [cons_append,cons_append,cons_append,misplacesType,ho,opensWithType_append ht]; rfl
  · cases h

lemma eq_false_of_infix {p : List Token → Bool} (ha : ∀ {ts}, p ts → ∀ more, p (ts ++ more)) {src : List Token}
    (h : ∀ rest ∈ src.tails, p rest = false) (ht : ts <:+: src) : p ts = false := by
  obtain ⟨pre,post,rfl⟩ := ht
  rw [eq_false_iff]
  intro htr
  have hf := h (ts ++ post) ((mem_tails _ _).mpr ⟨pre,(append_assoc _ _ _).symm⟩)
  rw [ha htr] at hf; cases hf

/-- A selector is part of another one, as itself or through arguments of pseudo-classes. It may start with
a combinator, if the flag with it says so: the whole one where it is relative, and arguments of `has`. -/
inductive Contains : (leads : Bool) → Selector → Bool → Selector → Prop
  | self {leads : Bool} {s : Selector} : Contains leads s leads s
  | argument {leads leads' : Bool} {s t u : Selector} {name : String} {selectors : List Selector}
      (hp : .pseudoClassOf name selectors ∈ s.inPlace) (ht : t ∈ selectors)
      (h : Contains (name == "has") t leads' u) : Contains leads s leads' u

section
variable (modules : Bool) (source : List Token)

/-- Where combinators and type or universal selectors stand in a selector read from tokens. -/
structure HasShape (leads : Bool) (s : Selector) : Prop where
  opens : leads = false → s.inPlace.opens = true
  closes : s.inPlace.closes = true
  apart : KeepsCombinators modules source → List.IsChain Apart s.inPlace
  types : KeepsTypes modules source → List.IsChain TypeBehind s.inPlace

structure IsArranged (leads : Bool) (s : Selector) : Prop where
  shape : HasShape modules source leads s
  arguments : ∀ name selectors, .pseudoClassOf name selectors ∈ s.inPlace → ∀ t ∈ selectors,
    ∀ leads' u, Contains (name == "has") t leads' u → HasShape modules source leads' u
  solid : ∀ p ∈ s, p.IsSolid

end

section
variable {modules : Bool} {source : List Token} {leads : Bool} {s t : Selector}

lemma IsArranged.hasShape (h : IsArranged modules source leads s) {leads' : Bool} {u : Selector}
    (hu : Contains leads s leads' u) : HasShape modules source leads' u := by
  cases hu with
  | self => exact h.shape
  | argument hp ht hu => exact h.arguments _ _ hp _ ht _ _ hu

lemma IsArranged.weaken (h : IsArranged modules source false s) : IsArranged modules source leads s :=
  ⟨⟨fun _ => h.shape.opens rfl,h.shape.closes,h.shape.apart,h.shape.types⟩,h.arguments,h.solid⟩

lemma not_isCombinator_of_opens (h : s.inPlace.opens) {p : Part} (hp : p ∈ s.head?) : p.isCombinator = false := by
  cases s with
  | nil => cases hp
  | cons q s =>
    cases hp
    cases p with
    | combinator c => cases h
    | _ => rfl

lemma isArranged_singleton {p : Part} (hp : p.isCombinator = false) (hg : p.isGlobal = false)
    (ha : ∀ name sels, p = .pseudoClassOf name sels → ∀ t ∈ sels,
      IsArranged modules source (name == "has") t) : IsArranged modules source false [p] := by
  have hpl : inPlace [p] = [p] := by rw [inPlace_singleton,Part.inPlace_of_not_global hg]
  refine ⟨⟨fun _ => ?_,?_,fun _ => ?_,fun _ => ?_⟩,?_,?_⟩
  · rw [hpl,opens_iff]
    exact ⟨p,rfl,hp⟩
  · rw [hpl,closes_iff]
    exact ⟨p,rfl,hp⟩
  · rw [hpl]
    exact isChain_singleton p
  · rw [hpl]
    exact isChain_singleton p
  · intro name sels hm t ht leads' u
    rw [hpl,mem_singleton] at hm
    exact (ha name sels hm.symm t ht).hasShape
  · intro q hq
    rw [mem_singleton.mp hq]
    exact isSolid_of_not_global hg

lemma isArranged_global (h : IsArranged modules source false s) : IsArranged modules source false [.global s] := by
  have hp : inPlace [.global s] = s.inPlace := inPlace_singleton _
  refine ⟨⟨?_,?_,?_,?_⟩,?_,?_⟩
  · rw [hp]
    exact h.shape.opens
  · rw [hp]
    exact h.shape.closes
  · rw [hp]
    exact h.shape.apart
  · rw [hp]
    exact h.shape.types
  · rw [hp]
    exact h.arguments
  · intro q hq
    rw [mem_singleton.mp hq]
    exact .inr ⟨h.shape.opens rfl,h.shape.closes⟩

/-- A selector that follows simple selectors, without a type or universal selector at its front. -/
lemma IsArranged.append (hs : IsArranged modules source false s) (ht : IsArranged modules source leads t)
    (hty : KeepsTypes modules source → ∀ p ∈ t.inPlace.head?, p.isType = false) :
    IsArranged modules source false (s ++ t) := by
  obtain ⟨last,hl,hn⟩ := closes_iff.mp hs.shape.closes
  refine ⟨⟨fun _ => ?_,?_,fun hk => ?_,fun hk => ?_⟩,?_,?_⟩
  · rw [inPlace_append]
    exact opens_append (hs.shape.opens rfl) t.inPlace
  · rw [inPlace_append]
    exact closes_append ht.shape.closes s.inPlace
  · rw [inPlace_append]
    refine (hs.shape.apart hk).append (ht.shape.apart hk) fun p hp q _ hc => ?_
    rw [hl] at hp; cases hp
    cases hn.symm.trans hc
  · rw [inPlace_append]
    refine (hs.shape.types hk).append (ht.shape.types hk) fun p _ q hq hq' => ?_
    cases (hty hk q hq).symm.trans hq'
  · intro name sels hm
    rw [inPlace_append,mem_append] at hm
    exact hm.elim (hs.arguments name sels) (ht.arguments name sels)
  · intro p hp
    exact (mem_append.mp hp).elim (hs.solid p) (ht.solid p)

lemma IsArranged.leading (h : IsArranged modules source false s) (c : Combinator) :
    IsArranged modules source true (.combinator c :: s) := by
  have hpl : inPlace (.combinator c :: s) = .combinator c :: s.inPlace := rfl
  refine ⟨⟨Bool.noConfusion,?_,fun hk => ?_,fun hk => ?_⟩,?_,?_⟩
  · exact closes_append h.shape.closes [.combinator c]
  · rw [hpl,isChain_cons]
    refine ⟨fun p hp _ => ?_,h.shape.apart hk⟩
    obtain ⟨first,hf,hn⟩ := opens_iff.mp (h.shape.opens rfl)
    rw [hf] at hp; cases hp
    exact hn
  · rw [hpl,isChain_cons]
    exact ⟨fun p _ _ => rfl,h.shape.types hk⟩
  · intro name sels hm
    rw [hpl] at hm
    rcases mem_cons.mp hm with heq | hm
    · cases heq
    · exact h.arguments name sels hm
  · exact forall_mem_cons.mpr ⟨.inl rfl,h.solid⟩

lemma IsArranged.combined (hs : IsArranged modules source false s) (c : Combinator)
    (ht : IsArranged modules source false t) : IsArranged modules source false (s ++ .combinator c :: t) := by
  refine hs.append (ht.leading c) fun _ p hp => ?_
  cases hp
  rfl

end
end Css.Selector
