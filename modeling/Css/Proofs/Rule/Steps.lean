import Css.Proofs.Rule.Blame
import Css.Proofs.Rule.Placement

/-!
# Parsers that go over tokens

A parser goes over the tokens of a source up to those that it leaves, and notes the faults of the tokens
that it passes.
-/
namespace Css
open List Token Declaration Prelude
namespace ParseM
variable {α β : Type} {size : Nat} {all ts us stop : List Token} {x y : ParseM α} {strict lenient : ParseM β}
  {P : α → List Token → Prop} {Q : β → List Token → Prop}

/-- A parser that goes over `ts` and gives a result and leaves tokens as `Q` says. A failure is that of a
block which is never closed, or else it is possible to go on with `stop`. -/
def Steps (size : Nat) (all ts stop : List Token) (Q : α → List Token → Prop) (strict lenient : ParseM α) : Prop :=
  Runs strict lenient fun r more =>
    match r with
    | .ok a => ∃ rest, Q a rest ∧ Along size all ts more rest
    | .error fault => fault.isUnclosedBlock ∨ Along size all ts (more ++ [fault]) stop

/-- A result as asked, with the tokens that are left. -/
def Leaves (P : α → Prop) (found : α × List Token) (rest : List Token) : Prop := P found.1 ∧ found.2 = rest

lemma steps_pure {b : β} {rest : List Token} (h : Q b rest) (hr : rest <:+ ts) :
    Steps size all ts stop Q (pure b) (pure b) :=
  runs_pure ⟨rest,h,.skip hr⟩

lemma steps_throw {fault : Fault} (h : fault.isUnclosedBlock ∨ Along size all ts [fault] stop) :
    Steps size all ts stop Q (throw fault) (throw fault) :=
  runs_throw h

lemma steps_recover (d : Dialect) {fault : Fault} (h : Along size all ts [fault] us) :
    Steps size all ts stop (fun _ rest => rest = us) ((d.recovering false).recover fault)
      ((d.recovering true).recover fault) :=
  runs_recover d ⟨us,rfl,h⟩

lemma Steps.mono (h : Steps size all us stop Q strict lenient) (hs : us <:+ ts) :
    Steps size all ts stop Q strict lenient := by
  refine Runs.mono h fun r more h => ?_
  cases r with
  | ok b =>
    obtain ⟨rest,hq,ha⟩ := h
    exact ⟨rest,hq,ha.mono hs⟩
  | error fault => exact h.imp_right fun ha => ha.mono hs

lemma steps_bind {f g : α → ParseM β} (hts : ts <:+ all) (hx : Steps size all ts stop P x y)
    (hf : ∀ a rest, rest <:+ all → P a rest → Steps size all rest stop Q (f a) (g a)) :
    Steps size all ts stop Q (x >>= f) (y >>= g) := by
  refine runs_bind hx (fun _ _ h => h) fun a more ⟨rest,hp,ha⟩ => ?_
  refine Runs.mono (hf a rest (ha.suffix hts) hp) fun r later h => ?_
  cases r with
  | ok b =>
    obtain ⟨rest,hq,hl⟩ := h
    exact ⟨rest,hq,ha.trans hl⟩
  | error fault =>
    refine h.imp_right fun hl => ?_
    rw [append_assoc]
    exact ha.trans hl

/-- A check that goes over nothing. -/
lemma steps_check {f g : α → ParseM β} {R : α → Prop} (hts : ts <:+ all)
    (hx : Steps size all ts stop (fun a rest => rest = ts ∧ R a) x x)
    (hf : ∀ a, R a → Steps size all ts stop Q (f a) (g a)) :
    Steps size all ts stop Q (x >>= f) (x >>= g) :=
  steps_bind hts hx fun a _ _ h => h.1 ▸ hf a h.2

lemma steps_attempt (d : Dialect) {step : Except Fault α} {part : List Token} (hts : ts <:+ all)
    (hb : Blamed part step) (hp : part ++ us <:+ ts) :
    Steps size all ts stop (fun found rest => rest = us ∧ ∀ a ∈ found, step = .ok a)
      ((d.recovering false).attempt step) ((d.recovering true).attempt step) := by
  cases step with
  | ok a =>
    refine steps_pure ⟨rfl,?_⟩ ((suffix_append part us).trans hp)
    rintro _ ⟨⟩
    rfl
  | error fault =>
    refine steps_bind hts (steps_recover d (along_of_blames hb hp (suffix_refl us))) ?_
    rintro _ rest _ rfl
    refine steps_pure ⟨rfl,?_⟩ (suffix_refl rest)
    rintro _ ⟨⟩

end ParseM

namespace Token
variable {t : Token}

lemma suffix_of_splitBefore (stop : Token → Bool) (depth : Nat) (ts : List Token) :
    (splitBefore stop depth ts).2 <:+ ts :=
  ⟨_,splitBefore_append stop depth ts⟩

lemma dropGroup_suffix (ts : List Token) : dropGroup ts <:+ ts := by
  unfold dropGroup
  split
  · obtain ⟨close,rfl⟩ := eq_of_splitClosing ‹_›
    exact (suffix_cons close _).trans (suffix_append _ _)
  · exact nil_suffix

lemma dropAtRule_suffix (ts : List Token) : dropAtRule ts <:+ ts := by
  have hs := suffix_of_splitBefore isPreludeEnd 0 ts
  unfold dropAtRule
  split
  · exact nil_suffix
  · rename_i t post ha
    rw [ha] at hs
    split
    · exact ((dropGroup_suffix post).trans (suffix_cons t post)).trans hs
    · exact hs

lemma along_keyword {size : Nat} {all ts us behind : List Token} {fault : Fault}
    (ht : t :: behind <:+ ts) (hs : fault.span.start = t.span.start) (hu : us <:+ t :: behind) :
    Along size all ts [fault] us :=
  .note ht hs (.skip hu)

end Token

open ParseM
variable (d : Dialect) {size : Nat} {all ts stop : List Token}

namespace ParseM
variable {α β : Type} {P : List β → Prop} {R : List Token → Prop} {f g : α → ParseM (List β)}

def collect (f : α → ParseM (List β)) (as : List α) : ParseM (List β) := do
  return (← as.mapM f).flatten

lemma steps_collect {us : List Token} {a : α} {as : List α} (hts : ts <:+ all) (hp : ∀ bs cs, P bs → P cs → P (bs ++ cs))
    (ha : Steps size all ts stop (fun bs rest => rest = us ∧ P bs) (f a) (g a))
    (has : us <:+ all → Steps size all us stop (fun bs rest => P bs ∧ R rest) (collect f as) (collect g as)) :
    Steps size all ts stop (fun bs rest => P bs ∧ R rest) (collect f (a :: as)) (collect g (a :: as)) := by
  have hcons (f : α → ParseM (List β)) : collect f (a :: as) = (do return (← f a) ++ (← collect f as)) := by
    simp [collect]
  rw [hcons,hcons]
  refine steps_bind hts ha ?_
  rintro bs rest hr ⟨rfl,hb⟩
  refine steps_bind hr (has hr) fun cs rest _ ⟨hc,hrest⟩ => ?_
  exact steps_pure ⟨hp bs cs hb hc,hrest⟩ (suffix_refl rest)

end ParseM

namespace Declaration

lemma areNamed_append {ds es : List Declaration} (hd : areNamed ds = true)
    (he : areNamed es = true) : areNamed (ds ++ es) = true := by
  rw [areNamed,all_append,Bool.and_eq_true]
  exact ⟨hd,he⟩

lemma steps_parseItems (hts : ts <:+ all) : Steps size all ts stop
    (fun found rest => areNamed found = true ∧ ∀ post ∈ (splitItems ts).2, rest = post)
    (parseItems (d.recovering false) (splitItems ts).1)
    (parseItems (d.recovering true) (splitItems ts).1) := by
  fun_induction splitItems ts with
  | case1 => exact steps_pure ⟨rfl,by rintro _ ⟨⟩⟩ (suffix_refl _)
  | case2 t rest _ ih | case3 t rest _ ih =>
    exact (ih ((suffix_cons t rest).trans hts)).mono (suffix_cons t rest)
  | case4 t rest _ =>
    refine steps_pure ⟨rfl,?_⟩ (suffix_cons t rest)
    rintro _ ⟨⟩
    rfl
  | case5 t rest _ items post heq ih =>
    have hr := (dropAtRule_suffix rest).trans (suffix_cons t rest)
    rw [heq] at ih
    refine steps_collect hts (fun _ _ => areNamed_append) ?_ ih
    refine steps_bind hts (steps_recover d (along_keyword (suffix_refl _) rfl hr)) ?_
    rintro _ us _ rfl
    exact steps_pure ⟨rfl,rfl⟩ (suffix_refl _)
  | case6 t rest parts items post heq _ _ _ _ ih =>
    have hr := (suffix_of_splitBefore isEnd (depthAfter 0 t.kind) rest).trans (suffix_cons t rest)
    rw [heq] at ih
    refine steps_collect hts (fun _ _ => areNamed_append) ?_ ih
    have hp : t :: parts.1 ++ parts.2 <:+ t :: rest := ⟨[],congrArg (t :: ·) (splitBefore_append ..)⟩
    refine steps_bind hts (steps_attempt d hts (blamed_parseEntry d t parts.1) hp) ?_
    rintro entry us _ ⟨rfl,he⟩
    split
    · refine steps_pure ⟨rfl,?_⟩ (suffix_refl _)
      simp [areNamed,isNamed_of_parseEntry (he _ rfl)]
    · exact steps_pure ⟨rfl,rfl⟩ (suffix_refl _)

lemma steps_parseBlock (opening : Token) (hts : ts <:+ all) : Steps size all ts stop (Leaves (areNamed · = true))
    (parseBlock (d.recovering false) opening ts) (parseBlock (d.recovering true) opening ts) := by
  refine steps_bind hts (steps_parseItems d hts) ?_
  rintro found rest - ⟨hf,hr⟩
  cases ha : (splitItems ts).2 with
  | none => exact steps_throw (.inl rfl)
  | some post => exact steps_pure ⟨hf,(hr post ha).symm⟩ (suffix_refl rest)

end Declaration

namespace Keyframe

lemma splitPrelude_append (t : Token) (rest : List Token) :
    (splitPrelude t rest).1 ++ (splitPrelude t rest).2 = t :: rest := by
  unfold splitPrelude
  split
  · rfl
  · exact congrArg (t :: ·) (splitBefore_append ..)

lemma splitPrelude_suffix (t : Token) (rest : List Token) : (splitPrelude t rest).2 <:+ t :: rest :=
  ⟨_,splitPrelude_append t rest⟩

/-- A keyframe that starts at a token: it has no selector exactly if that token opens its block. -/
structure IsParsed (d : Dialect) (all : List Token) (frame : Keyframe) : Prop where
  areNamed : Declaration.areNamed frame.declarations = true
  starts : ∃ t ∈ all, frame.location = d.location t ∧ (frame.selectors = [] ↔ t.kind = .leftBrace)

abbrev AreParsed (d : Dialect) (all : List Token) (frames : List Keyframe) : Prop :=
  ∀ frame ∈ frames, frame.IsParsed d all

lemma selectors_eq_nil_iff {tokens : List Token} {sels : List KeyframeSelector}
    (h : keyframeSelectors? tokens = some sels) : sels = [] ↔ tokens = [] := by
  unfold keyframeSelectors? commaParts at h
  split at h
  · cases h
    simp_all
  · obtain ⟨part,parts,hp⟩ := exists_cons_of_ne_nil (Cursor.partsFrom_ne_nil 0 tokens)
    rw [hp,mapM_cons] at h
    obtain ⟨first,-,h⟩ := Option.bind_eq_some_iff.mp h
    obtain ⟨more,-,h⟩ := Option.bind_eq_some_iff.mp h
    cases h
    simp_all

lemma starts_of_splitPrelude {t : Token} {rest : List Token} {sels : List KeyframeSelector}
    (hk : t.kind ≠ .rightBrace) (hs : keyframeSelectors? (splitPrelude t rest).1 = some sels) :
    sels = [] ↔ t.kind = .leftBrace := by
  rw [selectors_eq_nil_iff hs,splitPrelude]
  by_cases hb : isBrace t
  · simp_all [isBrace]
  · simp_all [isBrace]

lemma steps_parseItems (hts : ts <:+ all) : Steps size all ts stop
    (fun found rest => AreParsed d all found ∧ ∀ post ∈ (splitFrames ts).2, rest = post)
    (collect (parseItem (d.recovering false)) (splitFrames ts).1)
    (collect (parseItem (d.recovering true)) (splitFrames ts).1) := by
  have happ (xs ys : List Keyframe) (hx : AreParsed d all xs) (hy : AreParsed d all ys) : AreParsed d all (xs ++ ys) :=
    forall_mem_append.mpr ⟨hx,hy⟩
  have hinvalid {t : Token} {us rest : List Token} (hts : t :: rest <:+ all) (hu : us <:+ t :: rest) :
      Steps size all (t :: rest) stop (fun found rest => rest = us ∧ AreParsed d all found)
        (parseItem (d.recovering false) (.invalid t)) (parseItem (d.recovering true) (.invalid t)) := by
    refine steps_bind hts (steps_recover d (along_keyword (suffix_refl _) rfl hu)) ?_
    rintro _ us _ rfl
    exact steps_pure ⟨rfl,forall_mem_nil _⟩ (suffix_refl _)
  have hnil (us : List Token) : us <:+ all → Steps size all us stop
      (fun found rest => AreParsed d all found ∧ ∀ post ∈ none, rest = post)
      (collect (parseItem (d.recovering false)) []) (collect (parseItem (d.recovering true)) []) :=
    fun _ => steps_pure ⟨forall_mem_nil _,by rintro _ ⟨⟩⟩ (suffix_refl us)
  have hinner {t u : Token} {rest inner : List Token} (h : (splitPrelude t rest).2 = u :: inner) : inner <:+ t :: rest :=
    (suffix_cons u inner).trans (h ▸ splitPrelude_suffix t rest)
  have hframe {t u : Token} {rest inner us : List Token} {sels : List KeyframeSelector}
      (isClosed : Bool) (hts : t :: rest <:+ all) (hi : inner <:+ t :: rest)
      (hs : sels = [] ↔ t.kind = .leftBrace)
      (hu : isClosed = true → (Declaration.splitItems inner).2 = some us) :
      Steps size all (t :: rest) stop (fun found rest => rest = us ∧ AreParsed d all found)
        (parseItem (d.recovering false) (.frame t sels u (Declaration.splitItems inner).1 isClosed))
        (parseItem (d.recovering true) (.frame t sels u (Declaration.splitItems inner).1 isClosed)) := by
    refine steps_bind hts ((Declaration.steps_parseItems d (hi.trans hts)).mono hi) ?_
    rintro found rest - ⟨hf,hr⟩
    cases isClosed with
    | false => exact steps_throw (.inl rfl)
    | true =>
      refine steps_pure ⟨hr us (hu rfl),forall_mem_singleton.mpr ⟨hf,t,?_,rfl,hs⟩⟩ (suffix_refl rest)
      exact hts.subset mem_cons_self
  fun_induction splitFrames ts with
  | case1 => exact hnil [] hts
  | case2 t rest _ ih => exact (ih ((suffix_cons t rest).trans hts)).mono (suffix_cons t rest)
  | case3 t rest =>
    refine steps_pure ⟨forall_mem_nil _,?_⟩ (suffix_cons t rest)
    rintro _ ⟨⟩
    rfl
  | case4 => exact steps_collect hts happ (hinvalid hts nil_suffix) (hnil [])
  | case5 t rest _ _ u inner hp _ _ _ _ items post heq ih =>
    rw [heq] at ih
    exact steps_collect hts happ (hinvalid hts ((dropGroup_suffix inner).trans (hinner hp))) ih
  | case6 t rest _ hk u inner hp _ _ sels hs =>
    have hs := starts_of_splitPrelude hk hs
    exact steps_collect hts happ (hframe false hts (hinner hp) hs (by rintro ⟨⟩)) (hnil [])
  | case7 t rest _ hk u inner hp _ _ sels hs us hi _ items post heq ih =>
    rw [heq] at ih
    have hs := starts_of_splitPrelude hk hs
    exact steps_collect hts happ (hframe true hts (hinner hp) hs fun _ => hi) ih
  | case8 t rest _ _ u inner hp _ _ _ items post heq ih =>
    rw [heq] at ih
    exact steps_collect hts happ (hinvalid hts (hp ▸ splitPrelude_suffix t rest)) ih

lemma steps_parseBlock (opening : Token) (hts : ts <:+ all) : Steps size all ts stop (Leaves (AreParsed d all))
    (parseBlock (d.recovering false) opening ts) (parseBlock (d.recovering true) opening ts) := by
  cases ha : (splitFrames ts).2 with
  | none =>
    have heq (d : Dialect) : parseBlock d opening ts = (do
        let _ ← collect (parseItem d) (splitFrames ts).1
        throw (.parse .unclosedBlock opening.span)) := by
      simp [parseBlock,collect,ha]
    rw [heq,heq]
    exact steps_bind hts (steps_parseItems d hts) fun _ _ _ _ => steps_throw (.inl rfl)
  | some post =>
    have heq (d : Dialect) : parseBlock d opening ts = (do
        return (← collect (parseItem d) (splitFrames ts).1,post)) := by
      simp [parseBlock,collect,ha]
    rw [heq,heq]
    refine steps_bind hts (steps_parseItems d hts) ?_
    rintro found rest - ⟨hf,hr⟩
    exact steps_pure ⟨hf,(hr post ha).symm⟩ (suffix_refl rest)

end Keyframe
end Css
