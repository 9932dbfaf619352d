import Css.Proofs.Nesting.Enclosing
import Css.Proofs.Value.Tidy

/-!
# The grammar of keyframes

A strict parser of keyframes accepts blocks with a list of selectors in front of each, and white space
and semicolons between them. A block with nothing in front of it is a keyframe without selectors.
-/
namespace Css
open List Token Bool Declaration Option Prelude

deriving instance DecidableEq for KeyframeSelector

namespace Keyframe

def Names (t : Token) : KeyframeSelector → Prop
  | .start => t.isIdent "from"
  | .finish => t.isIdent "to"
  | .percentage number => t.kind = .percentage ∧ t.number = number ∧ 0 ≤ number ∧ number ≤ 100

/-- A list of selectors with commas between them. It has at least one. -/
inductive Listed : List Token → List KeyframeSelector → Prop where
  | one {before after : List Token} {t : Token} {selector : KeyframeSelector}
      (hbefore : ∀ u ∈ before, u.isBlank) (hafter : ∀ u ∈ after, u.isBlank) (h : Names t selector) :
      Listed (before ++ t :: after) [selector]
  | more {tokens rest : List Token} {comma : Token} {selector : KeyframeSelector}
      {selectors : List KeyframeSelector} (hfirst : Listed tokens [selector])
      (hcomma : comma.kind = .comma) (hrest : Listed rest selectors) :
      Listed (tokens ++ comma :: rest) (selector :: selectors)

/-- The body of a rule of keyframes, with the selectors of each keyframe. -/
inductive Written : List Token → List (List KeyframeSelector) → Prop where
  | nil : Written [] []
  | skip {t : Token} {rest : List Token} {frames : List (List KeyframeSelector)}
      (ht : t.kind = .whitespace ∨ t.kind = .semicolon) (hrest : Written rest frames) :
      Written (t :: rest) frames
  | frame {before inner rest : List Token} {opening closing : Token}
      {selectors : List KeyframeSelector} {frames : List (List KeyframeSelector)}
      (hbefore : Listed before selectors ∨ before = [] ∧ selectors = [])
      (hopening : opening.kind = .leftBrace) (hinner : Nested (inner.map kind))
      (hclosing : closing.kind = .rightBrace) (hrest : Written rest frames) :
      Written (before ++ opening :: inner ++ closing :: rest) (selectors :: frames)

lemma exists_trimBlank (ts : List Token) : ∃ pre post,
      ts = pre ++ trimBlank ts ++ post ∧ (∀ t ∈ pre, t.isBlank) ∧ ∀ t ∈ post, t.isBlank := by
  have hr := takeWhile_append_dropWhile (p := isBlank) (l := (dropBlank ts).reverse)
  refine ⟨ts.takeWhile isBlank,((dropBlank ts).reverse.takeWhile isBlank).reverse,?_,?_,?_⟩
  · rw [trimBlank,append_assoc,← reverse_append]
    rw [show dropBlank (dropBlank ts).reverse = (dropBlank ts).reverse.dropWhile isBlank from rfl,hr,reverse_reverse]
    exact (takeWhile_append_dropWhile ..).symm
  · exact fun t ht => mem_takeWhile_imp ht
  · exact fun t ht => mem_takeWhile_imp (mem_reverse.mp ht)

lemma names_of_keyframeSelector? {ts : List Token} {sel : KeyframeSelector}
    (h : keyframeSelector? (trimBlank ts) = some sel) : Listed ts [sel] := by
  obtain ⟨pre,post,heq,hb,ha⟩ := exists_trimBlank ts
  unfold keyframeSelector? at h
  split at h
  · next t ht =>
    rw [ht,append_assoc] at heq
    rw [heq]
    refine .one hb ha ?_
    split at h
    · cases h
      assumption
    split at h
    · cases h
      assumption
    split at h
    · next hp =>
      cases h
      simp only [and_eq_true,decide_eq_true_eq,beq_iff_eq] at hp
      exact ⟨hp.1.1,rfl,hp.1.2,hp.2⟩
    · cases h
  · cases h

lemma listed_of_mapM {ts : List Token} {selectors : List KeyframeSelector}
    (h : (partsFrom 0 ts).mapM (fun part => keyframeSelector? (trimBlank part)) =
      some selectors) : Listed ts selectors := by
  rcases Cursor.partsFrom_cases 0 ts with hp | ⟨part,comma,rest,rfl,hc,hp⟩
  · rw [hp,mapM_cons,mapM_nil] at h
    obtain ⟨selector,hs,h⟩ := bind_eq_some_iff.mp h
    cases h
    exact names_of_keyframeSelector? hs
  · rw [hp,mapM_cons] at h
    obtain ⟨selector,hs,h⟩ := bind_eq_some_iff.mp h
    obtain ⟨more,hm,h⟩ := bind_eq_some_iff.mp h
    cases h
    exact .more (names_of_keyframeSelector? hs) hc (listed_of_mapM hm)
termination_by ts.length

lemma listed_of_keyframeSelectors? {ts : List Token} {sels : List KeyframeSelector}
    (h : keyframeSelectors? ts = some sels) :
    Listed ts sels ∨ ts = [] ∧ sels = [] := by
  by_cases ht : ts = []
  · exact .inr ⟨ht,(selectors_eq_nil_iff h).mpr ht⟩
  · rw [keyframeSelectors?,commaParts,isEmpty_eq_false_iff.mpr ht] at h
    exact .inl (listed_of_mapM h)

end Keyframe

namespace ParseM
variable {α β : Type}

def Gives (x : ParseM α) (a : α) : Prop := ∃ faults after, x.run.run faults = (.ok a,after)

lemma Gives.bind {x : ParseM α} {f : α → ParseM β} {b : β} (h : Gives (x >>= f) b) : ∃ a, Gives x a ∧ Gives (f a) b := by
  obtain ⟨faults,post,h⟩ := h
  rw [run_bind] at h
  split at h
  · next a between hx => exact ⟨a,⟨faults,between,hx⟩,between,post,h⟩
  · cases h

lemma Gives.eq_of_pure {a b : α} (h : Gives (pure a) b) : a = b := by
  obtain ⟨faults,post,h⟩ := h
  cases h
  rfl

lemma Gives.of_mapM {f : α → ParseM β} {as : List α} {bs : List β} (h : Gives (as.mapM f) bs) :
    ∀ a ∈ as, ∃ b, Gives (f a) b := by
  induction as generalizing bs with
  | nil => exact forall_mem_nil _
  | cons a as ih =>
    rw [mapM_cons] at h
    obtain ⟨b,ha,h⟩ := h.bind
    obtain ⟨bs,has,-⟩ := h.bind
    exact forall_mem_cons.mpr ⟨⟨b,ha⟩,ih has⟩

lemma not_gives_throw {fault : Fault} {a : α} : ¬Gives (throw fault) a := by
  rintro ⟨faults,post,h⟩
  cases h

end ParseM

open ParseM

section
variable {d : Dialect} (hd : d.lenient = false)
include hd

lemma Dialect.not_gives_recover {fault : Fault} {a : Unit} : ¬Gives (d.recover fault) a := by
  rw [recover,hd]
  exact not_gives_throw

lemma Dialect.ok_of_gives_attempt {α : Type} {step : Except Fault α} {found : Option α}
    (h : Gives (d.attempt step) found) : ∃ a, step = .ok a := by
  cases step with
  | ok a => exact ⟨a,rfl⟩
  | error fault =>
    obtain ⟨_,h,-⟩ := h.bind
    exact absurd h (not_gives_recover hd)

namespace Declaration

section

omit hd

variable {ts rest : List Token} {t : Token}

lemma nested_of_blank (h : ∀ t ∈ ts, t.isBlank) : Nested (ts.map kind) := by
  induction ts with
  | nil => exact .nil
  | cons t ts ih =>
    obtain ⟨ht,hs⟩ := forall_mem_cons.mp h
    refine .leaf ?_ (ih hs)
    rw [eq_of_beq ht]; rfl

lemma nested_of_trimBlank (h : Nested ((trimBlank ts).map kind)) : Nested (ts.map kind) := by
  obtain ⟨pre,post,heq,hb,ha⟩ := Keyframe.exists_trimBlank ts
  rw [heq,map_append,map_append]
  exact ((nested_of_blank hb).append h).append (nested_of_blank ha)

lemma stop_of_splitBefore {stop : Token → Bool} {depth : Nat}
    (h : (splitBefore stop depth ts).2 = t :: rest) : stop t = true := by
  induction ts generalizing depth with
  | nil => cases h
  | cons u ts ih =>
    rw [splitBefore] at h
    split at h
    · next hu =>
      cases h
      exact (and_eq_true_iff.mp hu).2
    · exact ih h

lemma nested_of_splitImportant {value : List Token} {important : Bool}
    (h : splitImportant ts = .ok (value,important)) (hv : Nested (value.map kind)) :
    Nested (ts.map kind) := by
  have happ := splitBefore_append (fun t => t.isDelim '!') 0 ts
  unfold splitImportant at h
  dsimp only at h
  split at h
  · cases h
    exact hv
  · next pre bang post hs =>
    rw [hs] at happ
    have hb : bang.kind.isLeaf := by
      have hdelim := stop_of_splitBefore (congrArg Prod.snd hs)
      unfold isDelim delim? at hdelim
      cases hk : bang.kind with
      | delim => rfl
      | _ =>
        rw [hk] at hdelim; cases hdelim
    split at h
    · cases h
    split at h
    · next word hw =>
      split at h
      · next hi =>
        cases h
        have hword : word.kind.isLeaf := by
          rw [eq_of_beq (and_eq_true_iff.mp hi).1]; rfl
        rw [← happ,map_append,map_cons]
        refine (nested_of_trimBlank hv).append (.leaf hb (nested_of_trimBlank ?_))
        rw [hw]
        exact .leaf hword .nil
      · cases h
    · cases h

lemma nested_of_parse {name : Token} {decl : Declaration}
    (h : parse d name rest = .ok decl) : Nested ((name :: rest).map kind) := by
  unfold parse at h
  split at h
  · cases h
  · next ts hc =>
    split at hc
    · next hn =>
      have hrest : ∃ colon, colon.kind = .colon ∧ rest = rest.takeWhile isBlank ++ colon :: ts := by
        have happ := takeWhile_append_dropWhile (p := isBlank) (l := rest)
        unfold afterColon? dropBlank at hc
        split at hc
        · next colon value hdrop =>
          split at hc
          · next hk =>
            cases hc
            exact ⟨colon,eq_of_beq hk,by rw [← hdrop,happ]⟩
          · cases hc
        · cases hc
      obtain ⟨colon,hcolon,hrest⟩ := hrest
      split at h
      · cases h
      · next value important hi =>
        dsimp only at h
        split at h
        · cases h
        · split at h
          · cases h
          · next hv =>
            have htokens := nested_of_trimBlank (nested_of_splitImportant hi (Value.nested_of_parse hv))
            rw [hrest,map_cons,map_append,map_cons,eq_of_beq hn]
            refine .leaf rfl ((nested_of_blank fun t ht => mem_takeWhile_imp ht).append (.leaf ?_ htokens))
            rw [hcolon]; rfl
    · cases hc

lemma nested_of_parseEntry {name : Token} {entry : Entry} (h : parseEntry d name rest = .ok entry) :
    Nested ((name :: rest).map kind) := by
  unfold parseEntry at h
  split at h
  · cases h
  · exact nested_of_parse ‹_›

end

/-- A declaration that can be parsed, and no at-rule. -/
def Item.IsRead (d : Dialect) : Item → Prop
  | declaration name rest => ∃ entry, parseEntry d name rest = .ok entry
  | atRule _ => False

lemma isRead_of_gives {item : Item} {found : List Declaration} (h : Gives (parseItem d item) found) : item.IsRead d := by
  cases item with
  | declaration name rest =>
    obtain ⟨entry,h,-⟩ := h.bind
    exact Dialect.ok_of_gives_attempt hd h
  | atRule keyword =>
    obtain ⟨_,h,-⟩ := h.bind
    exact Dialect.not_gives_recover hd h

lemma areRead_of_gives {items : List Item} {found : List Declaration}
    (h : Gives (parseItems d items) found) : ∀ item ∈ items, item.IsRead d := by
  intro item hm
  obtain ⟨parts,h,-⟩ := h.bind
  obtain ⟨part,h⟩ := h.of_mapM item hm
  exact isRead_of_gives hd h

omit hd in
/-- A block of declarations that can be parsed is nested up to the brace that closes it. -/
lemma nested_of_splitItems {ts post : List Token}
    (h : ∀ item ∈ (splitItems ts).1, item.IsRead d) (ha : (splitItems ts).2 = some post) :
    ∃ inner closing, ts = inner ++ closing :: post ∧ closing.kind = .rightBrace ∧ Nested (inner.map kind) := by
  have hskip {t : Token} {rest : List Token} (ht : t.kind.isLeaf)
      (h : ∃ inner closing, rest = inner ++ closing :: post ∧ closing.kind = .rightBrace ∧ Nested (inner.map kind)) :
      ∃ inner closing, t :: rest = inner ++ closing :: post ∧ closing.kind = .rightBrace ∧ Nested (inner.map kind) := by
    obtain ⟨inner,closing,rfl,hc,hn⟩ := h
    exact ⟨t :: inner,closing,rfl,hc,.leaf ht hn⟩
  fun_induction splitItems ts with
  | case1 => cases ha
  | case2 t rest hk ih | case3 t rest hk ih =>
    exact hskip (by rw [hk]; rfl) (ih h ha)
  | case4 t rest hk =>
    cases ha
    exact ⟨[],t,rfl,hk,.nil⟩
  | case5 t rest hk items more heq ih => exact absurd (h _ mem_cons_self) id
  | case6 t rest parts items more heq _ _ _ _ ih =>
    rw [heq] at ih
    obtain ⟨hitem,hitems⟩ := forall_mem_cons.mp h
    obtain ⟨inner,closing,hp,hc,hn⟩ := ih hitems ha
    obtain ⟨entry,hentry⟩ := hitem
    have happ : parts.1 ++ parts.2 = rest := splitBefore_append ..
    refine ⟨t :: parts.1 ++ inner,closing,?_,hc,?_⟩
    · rw [← happ,hp]
      simp
    · rw [map_append]
      exact (nested_of_parseEntry hentry).append hn

end Declaration

namespace Keyframe

/-- A body that a strict parser accepts is written as the grammar asks. -/
lemma written_of_splitFrames {ts post : List Token} {found : List (List Keyframe)}
    (h : Gives ((splitFrames ts).1.mapM (parseItem d)) found) (ha : (splitFrames ts).2 = some post) :
    ∃ body closing, ts = body ++ closing :: post ∧ closing.kind = .rightBrace ∧
      Written body (found.flatten.map selectors) := by
  have hinvalid {t : Token} {items : List Item} {found : List (List Keyframe)} :
      ¬Gives ((Item.invalid t :: items).mapM (parseItem d)) found := by
    intro h
    obtain ⟨_,h⟩ := h.of_mapM _ mem_cons_self
    obtain ⟨_,h,-⟩ := h.bind
    exact Dialect.not_gives_recover hd h
  fun_induction splitFrames ts generalizing found with
  | case1 | case4 | case6 => cases ha
  | case2 t rest ht ih =>
    simp only [or_eq_true,beq_iff_eq] at ht
    obtain ⟨body,closing,rfl,hc,hw⟩ := ih h ha
    exact ⟨t :: body,closing,rfl,hc,.skip ht hw⟩
  | case3 t rest _ hk =>
    cases ha
    rw [← h.eq_of_pure]
    exact ⟨[],t,rfl,hk,.nil⟩
  | case5 | case8 => exact absurd h hinvalid
  | case7 t rest _ hk u inner hp _ hu selectors hs us hi _ items post heq ih =>
    rw [heq] at ih
    rw [mapM_cons] at h
    obtain ⟨frames,hframe,h⟩ := h.bind
    obtain ⟨more,hmore,h⟩ := h.bind
    rw [← h.eq_of_pure]
    obtain ⟨declarations,hitems,hframe⟩ := hframe.bind
    rw [← hframe.eq_of_pure]
    obtain ⟨contents,closing,hinner,hclosing,hn⟩ := nested_of_splitItems (areRead_of_gives hd hitems) hi
    obtain ⟨body,last,hus,hlast,hw⟩ := ih hmore ha
    have happ := splitPrelude_append t rest
    rw [hp,hinner,hus] at happ
    refine ⟨(splitPrelude t rest).1 ++ u :: contents ++ closing :: body,last,?_,hlast,?_⟩
    · rw [← happ]
      simp
    · exact .frame (listed_of_keyframeSelectors? hs) hu hn hclosing hw

lemma written_of_parseBlock {opening : Token} {ts post : List Token} {frames : List Keyframe}
    (h : Gives (parseBlock d opening ts) (frames,post)) :
    ∃ body closing, ts = body ++ closing :: post ∧ closing.kind = .rightBrace ∧ Written body (frames.map selectors) := by
  obtain ⟨found,hfound,h⟩ := h.bind
  split at h
  · next ha =>
    cases h.eq_of_pure
    exact written_of_splitFrames hd hfound ha
  · exact absurd h not_gives_throw

end Keyframe
end

def Rule.frames : Rule → List Keyframe
  | statement s _ => s.frames
  | style .. | nest .. | group .. => []

def Checks.framed (d : Dialect) (all : List Token) : Checks where
  statement _ s := Keyframe.AreParsed d all s.frames

lemma Checks.established_framed (d : Dialect) (all : List Token) : (Checks.framed d all).Established d all where
  style _ _ _ _ _ _ _ _ := trivial
  nest _ _ _ _ _ _ _ := trivial
  enclosing _ _ _ _ := trivial
  group _ _ := trivial
  statement _ _ h := h.areParsed

namespace Keyframe

/-- A strict parser accepts keyframes only if they are written as the grammar asks: each has a list of
selectors in front of its block, or nothing. In a parsed sheet, strict or lenient, each keyframe starts at
a token of the source, and it has no selector exactly if that token is the brace of its block. -/
theorem parse_keyframes (d : Dialect) (opening : Token) (tokens : List Token) (source : String)
    (options : ParseOptions) :
    (∀ frames after, d.lenient = false → Gives (parseBlock d opening tokens) (frames, after) →
      ∃ body closing, tokens = body ++ closing :: after ∧ closing.kind = .rightBrace ∧
        Written body (frames.map selectors)) ∧
    ∀ sheet, StyleSheet.parse source options = .ok sheet →
      ∀ inStyle r, Rule.Occurs sheet.rules inStyle r → ∀ frame ∈ r.frames, ∃ t ∈ scanRules source,
        frame.location = (SourceFile.ofText options.filename source).location t.span ∧
          (frame.selectors = [] ↔ t.kind = .leftBrace) := by
  refine ⟨fun frames after hd h => written_of_parseBlock hd h,?_⟩
  intro sheet h inStyle r hr frame hframe
  have hall := StyleSheet.allHold_of_established (Checks.established_framed _ _) h
  obtain ⟨scope,-,hholds⟩ := Rule.holds_of_occurs hall hr
  cases r with
  | statement s location => exact (hholds frame hframe).starts
  | style | nest | group => cases hframe

theorem parse_keyframes_percentages :
    (∃ body closing, scanRules "from , 50%\x7ba:b\x7d;\x7b\x7dto\x7b\x7d\x7d" = body ++ [closing] ∧
      Written body [[.start, .percentage 50], [], [.finish]]) ∧
    ∃ sheet, StyleSheet.parse "@keyframes k\x7bfrom\x7b\x7d\x7b\x7d\x7d" {} = .ok sheet ∧ ∃ r ∈ sheet.rules,
      r.frames.length = 2 ∧ ∀ frame ∈ r.frames,
        ∃ t ∈ scanRules "@keyframes k\x7bfrom\x7b\x7d\x7b\x7d\x7d", frame.selectors = [] ↔ t.kind = .leftBrace := by
  let d : Dialect := ⟨.ofText "" "",false,false,false,false⟩
  let opening : Token := ⟨.leftBrace,"",.none⟩
  constructor
  · let tokens := scanRules "from , 50%\x7ba:b\x7d;\x7b\x7dto\x7b\x7d\x7d"
    obtain ⟨⟨frames,after⟩,hrun,hcheck⟩ := Rule.ok_of_any
      (x := ((parseBlock d opening tokens).run.run []).1)
      (p := fun found => found.1.map selectors == [[.start, .percentage 50], [], [.finish]] && found.2.isEmpty)
      (by decide +kernel)
    obtain ⟨hselectors,rfl⟩ : frames.map selectors = [[.start, .percentage 50], [], [.finish]] ∧ after = [] := by
      simpa using hcheck
    obtain ⟨body,closing,htokens,-,hwritten⟩ :=
      (parse_keyframes d opening tokens "" {}).1 frames [] rfl ⟨[],_,Prod.ext hrun rfl⟩
    rw [hselectors] at hwritten
    exact ⟨body,closing,htokens,hwritten⟩
  · obtain ⟨sheet,hparse,hcheck⟩ := Rule.ok_of_any
      (x := StyleSheet.parse "@keyframes k\x7bfrom\x7b\x7d\x7b\x7d\x7d" {})
      (p := fun sheet => sheet.rules.any fun r => r.frames.length == 2) (by decide +kernel)
    obtain ⟨r,hr,hframes⟩ := any_eq_true.mp hcheck
    refine ⟨sheet,hparse,r,hr,eq_of_beq hframes,fun frame hframe => ?_⟩
    obtain ⟨t,ht,-,hiff⟩ := (parse_keyframes d opening [] _ _).2 sheet hparse false r (.top hr) frame hframe
    exact ⟨t,ht,hiff⟩

end Keyframe

/-- A block with nothing in front of it is a keyframe without selectors, though no rule of styles may
stand without one. -/
theorem StyleSheet.parse_bare_keyframe : ∃ sheet,
      StyleSheet.parse "@keyframes k\x7b\x7b\x7d\x7d" {} = .ok sheet ∧
        ∃ r ∈ sheet.rules, ∃ frame ∈ r.frames, frame.selectors = [] := by
  obtain ⟨sheet,hparse,hcheck⟩ := Rule.ok_of_any
    (x := StyleSheet.parse "@keyframes k\x7b\x7b\x7d\x7d" {})
    (p := fun sheet => sheet.rules.any fun r => r.frames.any fun frame => frame.selectors.isEmpty)
    (by decide +kernel)
  obtain ⟨r,hr,hframes⟩ := any_eq_true.mp hcheck
  obtain ⟨frame,hframe,hempty⟩ := any_eq_true.mp hframes
  exact ⟨sheet,hparse,r,hr,frame,hframe,isEmpty_iff.mp hempty⟩

end Css
