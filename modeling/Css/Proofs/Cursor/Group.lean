import Css.Rule.Recovery
import Css.Token.Group
import Mathlib.Tactic.Lemma

/-!
# Moving over groups

How a cursor finds the token that closes a bracket, the next token outside of brackets and the parts
between commas, and that these are where lists of tokens are cut. A checked parser checks that it may go on.
-/
namespace Css
open List

def Dialect.recovering (d : Dialect) (lenient : Bool) : Dialect := { d with lenient }

namespace ParseM
variable {α β : Type}

lemma run_bind (x : ParseM α) (f : α → ParseM β) (fts : List Fault) : (x >>= f).run.run fts =
      match x.run.run fts with
      | (.ok a,post) => (f a).run.run post
      | (.error fault,post) => (.error fault,post) := by
  rw [ExceptT.run_bind,StateT.run_bind]
  cases hr : x.run.run fts with
  | mk r post => cases r <;> rfl

lemma run_tryCatch (x : ParseM β) (handle : Fault → ParseM β) (fts : List Fault) :
    (tryCatch x handle : ParseM β).run.run fts = match x.run.run fts with
      | (.ok b,post) => (.ok b,post)
      | (.error fault,post) => (handle fault).run.run post := by
  rw [ExceptT.run_tryCatch,StateT.run_bind]
  cases hr : x.run.run fts with
  | mk r post => cases r <;> rfl

/-- The lenient run notes faults, of which the strict run fails with the first, and has the outcome that `Q`
is about. -/
def Runs (strict lenient : ParseM α) (Q : Except Fault α → List Fault → Prop) : Prop :=
  ∀ faults : List Fault, ∃ result more, lenient.run.run faults = (result,faults ++ more) ∧
    strict.run.run faults = (more.head?.elim result .error,faults) ∧ Q result more

variable {x y : ParseM α} {P : Except Fault α → List Fault → Prop} {Q : Except Fault β → List Fault → Prop}

lemma runs_pure {b : β} (h : Q (.ok b) []) : Runs (pure b) (pure b) Q :=
  fun fts => ⟨.ok b,[],by rw [append_nil]; rfl,rfl,h⟩

lemma runs_throw {fault : Fault} (h : Q (.error fault) []) : Runs (throw fault) (throw fault) Q :=
  fun fts => ⟨.error fault,[],by rw [append_nil]; rfl,rfl,h⟩

lemma runs_recover (d : Dialect) {fault : Fault} {Q : Except Fault Unit → List Fault → Prop} (h : Q (.ok ()) [fault]) :
    Runs ((d.recovering false).recover fault) ((d.recovering true).recover fault) Q :=
  fun _ => ⟨.ok (),[fault],rfl,rfl,h⟩

lemma runs_bind {f g : α → ParseM β} (hx : Runs x y P) (he : ∀ fault more, P (.error fault) more → Q (.error fault) more)
    (hf : ∀ a more, P (.ok a) more → Runs (f a) (g a) fun r later => Q r (more ++ later)) :
    Runs (x >>= f) (y >>= g) Q := by
  intro fts
  obtain ⟨r,more,hy,hx,hp⟩ := hx fts
  rw [run_bind,run_bind,hx,hy]
  cases r with
  | error fault =>
    refine ⟨.error fault,more,rfl,?_,he fault more hp⟩
    cases more <;> rfl
  | ok a =>
    obtain ⟨r,later,hg,hf,hq⟩ := hf a more hp (fts ++ more)
    refine ⟨r,more ++ later,hg.trans (by rw [append_assoc]),?_,hq⟩
    cases more with
    | nil =>
      rw [append_nil] at hf
      exact hf
    | cons first rest => rfl

/-- A strict parser does not recover, so that its handler fails with the fault it is given. -/
lemma runs_tryCatch {x y : ParseM β} {P : Except Fault β → List Fault → Prop}
    {strict lenient : Fault → ParseM β} (hx : Runs x y P)
    (hs : ∀ fault, strict fault = throw fault) (ho : ∀ b more, P (.ok b) more → Q (.ok b) more)
    (hh : ∀ fault more, P (.error fault) more → Runs (strict fault) (lenient fault) fun r later => Q r (more ++ later)) :
    Runs (tryCatch x strict) (tryCatch y lenient) Q := by
  intro fts
  obtain ⟨r,more,hy,hx,hp⟩ := hx fts
  rw [run_tryCatch,run_tryCatch,hx,hy]
  cases r with
  | ok b =>
    refine ⟨.ok b,more,rfl,?_,ho b more hp⟩
    cases more with
    | nil => rfl
    | cons first rest => exact congrArg (fun h : ParseM β => h.run.run fts) (hs first)
  | error fault =>
    obtain ⟨r,later,hl,hs',hq⟩ := hh fault more hp (fts ++ more)
    refine ⟨r,more ++ later,hl.trans (by rw [append_assoc]),?_,hq⟩
    cases more with
    | nil =>
      rw [append_nil] at hs'
      exact hs'
    | cons first rest => exact congrArg (fun h : ParseM β => h.run.run fts) (hs first)

lemma Runs.mono {x y : ParseM β} {P : Except Fault β → List Fault → Prop} (h : Runs x y P)
    (hpq : ∀ r more, P r more → Q r more) : Runs x y Q := by
  intro fts
  obtain ⟨r,more,hy,hx,hp⟩ := h fts
  exact ⟨r,more,hy,hx,hpq r more hp⟩

end ParseM

inductive Breach where
  | outOfBounds
  | underflow
  | stuck

abbrev CheckM := ExceptT Fault (StateT (List Fault) (Except Breach))

namespace CheckM
variable {α β γ δ : Type}

def breach (b : Breach) : CheckM α := ExceptT.mk fun _ => .error b

def lift (x : ParseM α) : CheckM α := ExceptT.mk fun faults => .ok (x.run.run faults)

def outcome (x : CheckM α) : CheckM (Except Fault α) := ExceptT.lift x.run

def token (tokens : List Token) (i : Nat) : CheckM Token := match tokens[i]? with
  | some t => pure t
  | none => breach .outOfBounds

def slice (items : List α) (i j : Nat) : CheckM (List α) :=
  if i ≤ j ∧ j ≤ items.length then pure ((items.drop i).take (j - i)) else breach .outOfBounds

def pred (n : Nat) : CheckM Nat := if n = 0 then breach .underflow else pure (n - 1)

def onward (length pos next : Nat) (round : pos < next ∧ next ≤ length → CheckM α) : CheckM α :=
  if h : pos < next ∧ next ≤ length then round h else breach .stuck

variable {i : Nat} {xs : List α} {a : α} {R : α → β → Prop} {x : CheckM α} {y : Except Fault β}

lemma token_eq {ts : List Token} {t : Token} (h : ts[i]? = some t) : token ts i = pure t := by
  rw [token,h]

lemma slice_eq {j : Nat} (hij : i ≤ j) (hj : j ≤ xs.length) : slice xs i j = pure ((xs.drop i).take (j - i)) :=
  if_pos ⟨hij,hj⟩

lemma slice_part {pre part rest : List α} {j : Nat} (hit : xs = pre ++ part ++ rest)
    (hi : i = pre.length) (hj : j = i + part.length) :
    slice xs i j = pure part := by
  subst hi hj hit
  rw [slice_eq (by omega) (by simp),append_assoc,drop_left,Nat.add_sub_cancel_left,take_left]

lemma slice_around {pre post : List α} (h : xs = pre ++ a :: post) :
    slice xs 0 pre.length = pure pre ∧ slice xs (pre.length + 1) xs.length = pure post := by
  have hb : xs = [] ++ pre ++ a :: post := h
  have ha : xs = (pre ++ [a]) ++ post ++ [] := by simp [h]
  refine ⟨slice_part hb rfl (by simp),slice_part ha (by simp) ?_⟩
  rw [h]
  simp
  omega

lemma pred_eq {n : Nat} (h : 0 < n) : pred n = pure (n - 1) := if_neg (Nat.ne_of_gt h)

lemma onward_eq {len pos next : Nat} {round : pos < next ∧ next ≤ len → CheckM α}
    (h : pos < next ∧ next ≤ len) : onward len pos next round = round h :=
  dif_pos h

def Reads (R : α → β → Prop) (x : CheckM α) : Except Fault β → Prop
  | .ok b => ∃ a, R a b ∧ x = pure a
  | .error fault => x = throw fault

lemma reads_ofExcept (y : Except Fault α) : Reads Eq (MonadExcept.ofExcept y) y := by
  cases y with
  | error fault => rfl
  | ok b => exact ⟨b,rfl,rfl⟩

lemma reads_pure {b : β} (h : R a b) : Reads R (pure a) (.ok b) := ⟨a,h,rfl⟩

lemma reads_throw (fault : Fault) : Reads R (throw fault) (.error fault) := rfl

lemma Reads.cases (h : Reads R x y) :
    (∃ fault, x = throw fault ∧ y = .error fault) ∨ ∃ a b, R a b ∧ x = pure a ∧ y = .ok b := by
  cases y with
  | error fault => exact .inl ⟨fault,h,rfl⟩
  | ok b =>
    obtain ⟨a,hab,hx⟩ := h
    exact .inr ⟨a,b,hab,hx,rfl⟩

@[elab_as_elim]
lemma Reads.elim {motive : CheckM α → Except Fault β → Prop} (h : Reads R x y)
    (error : ∀ fault, motive (throw fault) (.error fault))
    (ok : ∀ a b, R a b → y = .ok b → motive (pure a) (.ok b)) : motive x y := by
  obtain ⟨fault,rfl,rfl⟩ | ⟨a,b,hab,rfl,rfl⟩ := h.cases
  · exact error fault
  · exact ok a b hab rfl

@[elab_as_elim]
lemma Reads.elim_eq {y : Except Fault α} {motive : CheckM α → Except Fault α → Prop} (h : Reads Eq x y)
    (error : ∀ fault, motive (throw fault) (.error fault))
    (ok : ∀ a, y = .ok a → motive (pure a) (.ok a)) : motive x y :=
  h.elim error fun _ b hab hy => hab ▸ ok b hy

lemma Reads.eq_ofExcept {y : Except Fault α} (h : Reads Eq x y) : x = MonadExcept.ofExcept y := by
  obtain ⟨fault,rfl,rfl⟩ | ⟨a,b,rfl,rfl,rfl⟩ := h.cases
  · rfl
  · rfl

lemma Reads.mono {S : α → β → Prop} (h : Reads R x y) (hRS : ∀ a b, R a b → S a b) : Reads S x y := by
  obtain ⟨fault,rfl,rfl⟩ | ⟨a,b,hab,rfl,rfl⟩ := h.cases
  · rfl
  · exact ⟨a,hRS a b hab,rfl⟩

variable {S : γ → δ → Prop}

lemma reads_bind {f : α → CheckM γ} {g : β → Except Fault δ} (hx : Reads R x y)
    (hf : ∀ a b, R a b → Reads S (f a) (g b)) : Reads S (x >>= f) (y >>= g) := by
  obtain ⟨fault,rfl,rfl⟩ | ⟨a,b,hab,rfl,rfl⟩ := hx.cases
  · rfl
  · rw [pure_bind]
    exact hf a b hab

lemma reads_mapM {f : α → CheckM β} {g : α → Except Fault β} (h : ∀ a ∈ xs, Reads Eq (f a) (g a)) :
    Reads Eq (xs.mapM f) (xs.mapM g) := by
  induction xs with
  | nil => exact reads_pure rfl
  | cons a xs ih =>
    rw [mapM_cons,mapM_cons]
    refine reads_bind (h a mem_cons_self) fun b b' hb => ?_
    refine reads_bind (ih fun c hc => h c (mem_cons_of_mem a hc)) fun bs bs' hbs => ?_
    rw [hb,hbs]
    exact reads_pure rfl

lemma outcome_of_reads {y : Except Fault α} (h : Reads Eq x y) : outcome x = pure y := by
  rw [h.eq_ofExcept]
  cases y <;> rfl

/-- Without a breach, the first parser has the outcomes of the second one up to `R`, and leaves the same
faults. -/
structure Simulates (R : α → β → Prop) (x : CheckM α) (y : ParseM β) : Prop where
  run : ∀ faults,
    match y.run.run faults with
    | (.ok b,after) => ∃ a, R a b ∧ x.run.run faults = .ok (.ok a,after)
    | (.error fault,after) => x.run.run faults = .ok (.error fault,after)

lemma run_bind (x : CheckM α) (f : α → CheckM β) (fts : List Fault) :
    (x >>= f).run.run fts = match x.run.run fts with
      | .ok (.ok a,post) => (f a).run.run post
      | .ok (.error fault,post) => .ok (.error fault,post)
      | .error b => .error b := by
  rw [ExceptT.run_bind,StateT.run_bind]
  cases hr : x.run.run fts with
  | error b => rfl
  | ok found =>
    obtain ⟨r,post⟩ := found
    cases r <;> rfl

lemma run_tryCatch (x : CheckM α) (handle : Fault → CheckM α) (fts : List Fault) :
    (tryCatch x handle : CheckM α).run.run fts = match x.run.run fts with
      | .ok (.ok a,post) => .ok (.ok a,post)
      | .ok (.error fault,post) => (handle fault).run.run post
      | .error b => .error b := by
  rw [ExceptT.run_tryCatch,StateT.run_bind]
  cases hr : x.run.run fts with
  | error b => rfl
  | ok found =>
    obtain ⟨r,post⟩ := found
    cases r <;> rfl

lemma simulates_pure {b : β} (h : R a b) : Simulates R (pure a) (pure b) := ⟨fun _ => ⟨a,h,rfl⟩⟩

lemma simulates_throw (fault : Fault) : Simulates R (throw fault) (throw fault) := ⟨fun _ => rfl⟩

lemma Simulates.mono {S : α → β → Prop} {y : ParseM β} (h : Simulates R x y)
    (hRS : ∀ a b, R a b → S a b) : Simulates S x y := by
  refine ⟨fun fts => ?_⟩
  have hr := h.run fts
  cases hy : y.run.run fts with
  | mk r post =>
    rw [hy] at hr
    cases r with
    | error fault => exact hr
    | ok b =>
      obtain ⟨a,hab,hx⟩ := hr
      exact ⟨a,hRS a b hab,hx⟩

lemma simulates_lift (y : ParseM α) : Simulates Eq (lift y) y := by
  refine ⟨fun fts => ?_⟩
  cases hy : y.run.run fts with
  | mk r post =>
    have hx : (lift y).run.run fts = .ok (r,post) := congrArg Except.ok hy
    cases r with
    | error fault => exact hx
    | ok b => exact ⟨b,rfl,hx⟩

lemma eq_lift_of_simulates {y : ParseM α} (h : Simulates Eq x y) : x = lift y := by
  funext faults
  have hx := h.run faults
  have hl : lift y faults = .ok (y.run.run faults) := rfl
  rw [hl]
  cases hy : y.run.run faults with
  | mk r post =>
    rw [hy] at hx
    cases r with
    | error fault => exact hx
    | ok b =>
      obtain ⟨a,rfl,hx⟩ := hx
      exact hx

lemma simulates_bind {y : ParseM β} {f : α → CheckM γ} {g : β → ParseM δ}
    (hx : Simulates R x y) (hf : ∀ a b, R a b → Simulates S (f a) (g b)) :
    Simulates S (x >>= f) (y >>= g) := by
  refine ⟨fun faults => ?_⟩
  have hr := hx.run faults
  rw [ParseM.run_bind,run_bind]
  cases hy : y.run.run faults with
  | mk r post =>
    rw [hy] at hr
    cases r with
    | error fault =>
      rw [show x.run.run faults = _ from hr]
    | ok b =>
      obtain ⟨a,hab,hr⟩ := hr
      rw [hr]
      exact (hf a b hab).run post

lemma simulates_lift_bind {y : ParseM β} {f : β → CheckM γ} {g : β → ParseM δ}
    (hf : ∀ b, Simulates S (f b) (g b)) : Simulates S (lift y >>= f) (y >>= g) :=
  simulates_bind (simulates_lift y) fun _ b hab => hab ▸ hf b

lemma simulates_lift_map {f : β → α} (hf : ∀ b, R (f b) b) (y : ParseM β) :
    Simulates R (lift y >>= fun b => pure (f b)) y := by
  have h : Simulates R (lift y >>= fun b => pure (f b)) (y >>= pure) :=
    simulates_lift_bind fun b => simulates_pure (hf b)
  rwa [bind_pure] at h

lemma simulates_tryCatch {y : ParseM β} {handle : Fault → CheckM α} {handle' : Fault → ParseM β}
    (hx : Simulates R x y) (hh : ∀ fault, Simulates R (handle fault) (handle' fault)) :
    Simulates R (tryCatch x handle) (tryCatch y handle') := by
  refine ⟨fun faults => ?_⟩
  have hr := hx.run faults
  rw [ParseM.run_tryCatch,run_tryCatch]
  cases hy : y.run.run faults with
  | mk r post =>
    rw [hy] at hr
    cases r with
    | error fault =>
      rw [show x.run.run faults = _ from hr]
      exact (hh fault).run post
    | ok b =>
      obtain ⟨a,hab,hr⟩ := hr
      rw [hr]
      exact ⟨a,hab,rfl⟩

lemma simulates_of_reads (h : Reads R x y) : Simulates R x (MonadExcept.ofExcept y) := by
  obtain ⟨fault,rfl,rfl⟩ | ⟨a,b,hab,rfl,rfl⟩ := h.cases
  · exact simulates_throw fault
  · exact simulates_pure hab

end CheckM
end Css

namespace Css.Cursor
open List Token CheckM Option

/-- The index of the token that closes the last of `depth` brackets, if `i` is that of the first token. -/
def closingFrom (depth i : Nat) : List Token → Option Nat
  | [] => none
  | t :: rest =>
    if t.kind.opens then closingFrom (depth + 1) (i + 1) rest
    else if t.kind.closes then
      if depth - 1 = 0 then some i else closingFrom (depth - 1) (i + 1) rest
    else closingFrom depth (i + 1) rest

def matchingClose (ts : List Token) (i : Nat) : Option Nat := closingFrom 0 i (ts.drop i)

def skipComponent (ts : List Token) (i : Nat) : Nat := match ts[i]? with
  | none => i
  | some t =>
    if t.kind.opens then
      match matchingClose ts i with
      | some j => j + 1
      | none => ts.length
    else i + 1

/-- The index of the first token from `i` on, outside of brackets, that satisfies `stop`. -/
def findTopLevel (ts : List Token) (stop : Token → Bool) (i : Nat) : CheckM Nat := match ts[i]? with
  | none => pure i
  | some t =>
    if stop t then pure i
    else
      onward ts.length i (skipComponent ts i) fun _ =>
        findTopLevel ts stop (skipComponent ts i)
termination_by ts.length - i
decreasing_by omega

def skipBlank (ts : List Token) (i : Nat) : CheckM Nat := if ts[i]?.any isBlank then
    onward ts.length i (i + 1) fun _ => skipBlank ts (i + 1)
  else pure i
termination_by ts.length - i
decreasing_by omega

/-- The slices between the commas outside of `depth` brackets, for the tokens from `i` on, of which the
first slice starts at `start`. -/
def slicesFrom (ts : List Token) (depth start i : Nat) : List Token → CheckM (List (List Token))
  | [] => do
    if ts.isEmpty then return []
    return [← slice ts start ts.length]
  | t :: rest => do
    if depth = 0 && t.kind == .comma then
      let part ← slice ts start i
      return part :: (← slicesFrom ts depth (i + 1) (i + 1) rest)
    else slicesFrom ts (depthAfter depth t.kind) start (i + 1) rest

def commaSlices (ts : List Token) : CheckM (List (List Token)) := slicesFrom ts 0 0 0 ts

lemma drop_cases (ts : List Token) (i : Nat) : (ts.drop i = [] ∧ ts[i]? = none ∧ ts.length ≤ i) ∨
      ∃ t, ts.drop i = t :: ts.drop (i + 1) ∧ ts[i]? = some t ∧ i < ts.length := by
  by_cases h : i < ts.length
  · exact .inr ⟨ts[i],drop_eq_getElem_cons h,List.getElem?_eq_getElem h,h⟩
  · have hi : ts.length ≤ i := Nat.le_of_not_lt h
    exact .inl ⟨drop_eq_nil_of_le hi,List.getElem?_eq_none hi,hi⟩

variable {ts rest : List Token} {i : Nat} {t : Token}

lemma eq_of_drop_eq_cons (h : ts.drop i = t :: rest) : ts[i]? = some t ∧ ts.drop (i + 1) = rest ∧ i < ts.length := by
  obtain ⟨hn,-⟩ | ⟨u,hc,hg,hi⟩ := drop_cases ts i
  · rw [hn] at h; cases h
  · rw [hc] at h; cases h
    exact ⟨hg,rfl,hi⟩

lemma drop_eq_cons (h : ts[i]? = some t) : ts.drop i = t :: ts.drop (i + 1) := by
  obtain ⟨hi,rfl⟩ := List.getElem?_eq_some_iff.mp h
  exact drop_eq_getElem_cons hi

variable {α : Type}

lemma findIdx?_cases (p : α → Bool) (xs : List α) : (xs.findIdx? p = none ∧ ∀ a ∈ xs, p a = false) ∨
      ∃ pre a post, xs = pre ++ a :: post ∧ xs.findIdx? p = some pre.length ∧ p a ∧ ∀ b ∈ pre, p b = false := by
  induction xs with
  | nil => exact .inl ⟨rfl,by simp⟩
  | cons a rest ih =>
    by_cases ha : p a
    · exact .inr ⟨[],a,rest,rfl,by simp [List.findIdx?_cons,ha],ha,by simp⟩
    · obtain ⟨hn,hal⟩ | ⟨pre,b,post,rfl,hf,hb,hal⟩ := ih
      · refine .inl ⟨by simp [List.findIdx?_cons,ha,hn],?_⟩
        simpa [ha] using hal
      · refine .inr ⟨a :: pre,b,post,rfl,by simp [List.findIdx?_cons,ha,hf],hb,?_⟩
        simpa [ha] using hal

lemma takeWhile_dropWhile_of_first {p : α → Bool} {pre : List α} {a : α}
    (hal : ∀ b ∈ pre, p b = false) (ha : p a) (post : List α) :
    (pre ++ a :: post).takeWhile (fun b => !p b) = pre ∧ (pre ++ a :: post).dropWhile (fun b => !p b) = a :: post := by
  have hb : ∀ b ∈ pre, (!p b) := by simpa using hal
  constructor
  · rw [takeWhile_append_of_pos hb,takeWhile_cons_of_neg (by simp [ha]),append_nil]
  · rw [dropWhile_append_of_pos hb,dropWhile_cons_of_neg (by simp [ha])]

structure Left {α : Type} (ts : List Token) (i : Nat) (x : α × Nat) (y : α × List Token) : Prop where
  result : x.1 = y.1
  le : i ≤ x.2
  le_length : x.2 ≤ ts.length
  rest : ts.drop x.2 = y.2

variable {j : Nat}

lemma Left.spec {a b : α} (h : Left ts i (a,j) (b,rest)) : a = b ∧ (i ≤ j ∧ j ≤ ts.length) ∧ rest = ts.drop j :=
  ⟨h.result,⟨h.le,h.le_length⟩,h.rest.symm⟩

lemma Left.mono {x : α × Nat} {y : α × List Token} (h : Left ts j x y) (hij : i ≤ j) : Left ts i x y :=
  { h with le := Nat.le_trans hij h.le }

lemma simulates_bind_left {x : CheckM (α × Nat)} {y : ParseM (α × List Token)} {S : β → γ → Prop}
    {f : α × Nat → CheckM β} {g : α × List Token → ParseM γ} (hx : Simulates (Left ts i) x y)
    (hf : ∀ a stop, i ≤ stop ∧ stop ≤ ts.length → Simulates S (f (a,stop)) (g (a,ts.drop stop))) :
    Simulates S (x >>= f) (y >>= g) := by
  refine simulates_bind hx ?_
  rintro ⟨a,stop⟩ ⟨_,rest⟩ hl
  obtain ⟨rfl,hs,rfl⟩ := hl.spec
  exact hf a stop hs

lemma left_of_suffix (a : α) (h : rest <:+ ts.drop i) (hi : i ≤ ts.length) :
    Left ts i (a,ts.length - rest.length) (a,rest) where
  result := rfl
  le := by
    have hl := h.length_le
    rw [length_drop] at hl
    omega
  le_length := Nat.sub_le _ _
  rest := (suffix_iff_eq_drop.mp (h.trans (drop_suffix _ _))).symm

lemma not_closes_of_opens {kind : Kind} (h : kind.opens) : kind.closes = false := by
  cases kind <;> first | rfl | cases h

lemma not_opens_of_closes {kind : Kind} (h : kind.closes) : kind.opens = false := by
  cases kind <;> first | rfl | cases h

lemma closingFrom_eq (depth i : Nat) (ts : List Token) :
    closingFrom depth i ts = (splitClosing depth ts).map fun ps => i + ps.1.length := by
  induction ts generalizing depth i with
  | nil => rfl
  | cons t rest ih =>
    have hr (depth : Nat) : closingFrom depth (i + 1) rest =
        ((splitClosing depth rest).map fun ps => (t :: ps.1,ps.2)).map fun ps => i + ps.1.length := by
      rw [ih,Option.map_map]
      congr 1
      funext ps
      simp only [Function.comp,length_cons]
      omega
    rw [closingFrom,splitClosing,depthAfter]
    by_cases ho : t.kind.opens
    · simp [ho,not_closes_of_opens ho,hr]
    · by_cases hc : t.kind.closes
      · by_cases hd : depth ≤ 1
        · have hz : depth - 1 = 0 := by omega
          simp [ho,hc,hd,hz]
        · have hz : depth - 1 ≠ 0 := by omega
          simp [ho,hc,hd,hz,hr]
      · simp [ho,hc,hr]

variable {depth : Nat}

lemma matchingClose_eq (ht : ts[i]? = some t) (ho : t.kind.opens) : matchingClose ts i =
      (splitClosing 1 (ts.drop (i + 1))).map fun ps => i + 1 + ps.1.length := by
  rw [matchingClose,drop_eq_cons ht,closingFrom,if_pos ho,closingFrom_eq]

lemma skipComponent_spec (ht : ts[i]? = some t) : (i < skipComponent ts i ∧ skipComponent ts i ≤ ts.length) ∧
      ts.drop (skipComponent ts i) =
        if t.kind.opens then dropGroup (ts.drop (i + 1)) else ts.drop (i + 1) := by
  have hi : i < ts.length := (List.getElem?_eq_some_iff.mp ht).1
  rw [skipComponent,ht]
  dsimp only
  by_cases ho : t.kind.opens
  · rw [if_pos ho,if_pos ho,matchingClose_eq ht ho,dropGroup]
    cases hs : splitClosing 1 (ts.drop (i + 1)) with
    | none => exact ⟨⟨hi,Nat.le_refl _⟩,drop_length⟩
    | some ps =>
      obtain ⟨inner,post⟩ := ps
      obtain ⟨u,hu⟩ := eq_of_splitClosing hs
      have hl := congrArg List.length hu
      simp only [length_drop,length_append,length_cons] at hl
      have ha : ts.drop (i + 1 + inner.length + 1) = post := by
        have hsp : ts.drop (i + 1) = (inner ++ [u]) ++ post := by simpa using hu
        have h := congrArg (List.drop (inner ++ [u]).length) hsp
        rw [drop_drop,drop_left,length_append,length_singleton] at h
        exact h
      exact ⟨⟨by dsimp only [map_some]; omega,by dsimp only [map_some]; omega⟩,ha⟩
  · rw [if_neg ho,if_neg ho]
    exact ⟨⟨Nat.lt_succ_self i,hi⟩,rfl⟩

lemma splitBefore_open (stop : Token → Bool) (hd : 0 < depth) (ts : List Token) :
    (splitBefore stop depth ts).2 = match splitClosing depth ts with
      | some (_,post) => (splitBefore stop 0 post).2
      | none => [] := by
  induction ts generalizing depth with
  | nil => rfl
  | cons t rest ih =>
    have hne : depth ≠ 0 := Nat.ne_of_gt hd
    have hs : (splitBefore stop depth (t :: rest)).2 = (splitBefore stop (depthAfter depth t.kind) rest).2 := by
      rw [splitBefore]
      simp [hne]
    rw [hs,splitClosing]
    by_cases hc : (t.kind.closes && decide (depth ≤ 1))
    · -- The token closes the last bracket.
      have ha : depthAfter depth t.kind = 0 := by
        simp only [Bool.and_eq_true,decide_eq_true_eq] at hc
        simp only [depthAfter,not_opens_of_closes hc.1,hc.1,if_true,Bool.false_eq_true,if_false]
        omega
      rw [if_pos hc,ha]
    · have ha : 0 < depthAfter depth t.kind := by
        simp only [Bool.and_eq_true,decide_eq_true_eq,not_and] at hc
        unfold depthAfter
        split
        · omega
        · split
          · next h => have := hc h; omega
          · exact hd
      rw [if_neg hc,ih ha]
      cases splitClosing (depthAfter depth t.kind) rest <;> rfl

/-- A stop from `i` on: what is left there is what is left by a split, and what is before it is a
slice. -/
structure StopsAt (ts : List Token) (stop : Token → Bool) (i j : Nat) : Prop where
  le : i ≤ j
  le_length : j ≤ ts.length
  split : splitBefore stop 0 (ts.drop i) = ((ts.drop i).take (j - i),ts.drop j)

variable {stop : Token → Bool}

lemma StopsAt.slice_eq (h : StopsAt ts stop i j) : slice ts i j = pure (splitBefore stop 0 (ts.drop i)).1 := by
  rw [CheckM.slice_eq h.le h.le_length,h.split]

lemma StopsAt.lt (h : StopsAt ts stop i j) (ht : ts[i]? = some t) (hs : stop t = false) : i < j := by
  refine Nat.lt_of_le_of_ne h.le fun heq => ?_
  subst heq
  have hf := congrArg Prod.fst h.split
  rw [drop_eq_cons ht,splitBefore] at hf
  simp [hs] at hf

lemma StopsAt.lt_of_imp {u : Token} (h : StopsAt ts stop i j) (ht : ts[i]? = some t)
    (hu : ts[j]? = some u) (hi : u = t → stop t = false) : i < j := by
  refine Nat.lt_of_le_of_ne h.le fun heq => ?_
  subst heq
  rw [ht] at hu; cases hu
  exact Nat.lt_irrefl i (h.lt ht (hi rfl))

lemma stopsAt_of_eq (hij : i ≤ j) (hj : j ≤ ts.length) (h : (splitBefore stop 0 (ts.drop i)).2 = ts.drop j) :
    StopsAt ts stop i j where
  le := hij
  le_length := hj
  split := by
    have ha := splitBefore_append stop 0 (ts.drop i)
    rw [h] at ha
    have hl := congrArg List.length ha
    simp only [length_append,length_drop] at hl
    have hf : (splitBefore stop 0 (ts.drop i)).1.length = j - i := by omega
    have ht := congrArg (List.take (j - i)) ha
    rw [← hf,take_left,hf] at ht
    rw [← ht,← h]

lemma findTopLevel_spec (ts : List Token) (stop : Token → Bool) (hi : i ≤ ts.length) :
    ∃ j, findTopLevel ts stop i = pure j ∧ StopsAt ts stop i j := by
  induction hn : ts.length - i using Nat.strongRecOn generalizing i with
  | ind n ih =>
    rw [findTopLevel]
    obtain ⟨hd,hg,-⟩ | ⟨t,hd,hg,hlt⟩ := drop_cases ts i
    · rw [hg]
      refine ⟨i,rfl,stopsAt_of_eq (Nat.le_refl i) hi ?_⟩
      rw [hd]; rfl
    · rw [hg]
      dsimp only
      by_cases hs : stop t
      · refine ⟨i,if_pos hs,stopsAt_of_eq (Nat.le_refl i) hi ?_⟩
        rw [hd,splitBefore]
        simp [hs]
      · obtain ⟨hm,hsk⟩ := skipComponent_spec hg
        obtain ⟨j,hj,hst⟩ := ih (ts.length - skipComponent ts i) (by omega) hm.2 rfl
        refine ⟨j,?_,stopsAt_of_eq (Nat.le_trans (Nat.le_of_lt hm.1) hst.le) hst.le_length ?_⟩
        · rw [if_neg hs,onward_eq hm,hj]
        · have hsp : (splitBefore stop 0 (ts.drop i)).2 =
              (splitBefore stop (depthAfter 0 t.kind) (ts.drop (i + 1))).2 := by
            rw [hd,splitBefore]
            simp [hs]
          have hgr : (splitBefore stop (depthAfter 0 t.kind) (ts.drop (i + 1))).2 =
              (splitBefore stop 0 (ts.drop (skipComponent ts i))).2 := by
            rw [hsk]
            by_cases ho : t.kind.opens
            · have hdp : depthAfter 0 t.kind = 1 := by simp [depthAfter,ho]
              rw [hdp,if_pos ho,splitBefore_open stop Nat.one_pos,dropGroup]
              cases splitClosing 1 (ts.drop (i + 1)) <;> rfl
            · have hdp : depthAfter 0 t.kind = 0 := by simp [depthAfter,ho]
              rw [hdp,if_neg ho]
          rw [hsp,hgr,hst.split]

lemma skipBlank_spec (ts : List Token) (hi : i ≤ ts.length) :
    ∃ j, skipBlank ts i = pure j ∧ (i ≤ j ∧ j ≤ ts.length) ∧ dropBlank (ts.drop i) = ts.drop j := by
  induction hn : ts.length - i using Nat.strongRecOn generalizing i with
  | ind n ih =>
    rw [skipBlank]
    obtain ⟨hd,hg,-⟩ | ⟨t,hd,hg,hlt⟩ := drop_cases ts i
    · rw [hg]
      refine ⟨i,rfl,⟨Nat.le_refl i,hi⟩,?_⟩
      rw [hd]; rfl
    · rw [hg,hd]
      by_cases hb : t.isBlank
      · obtain ⟨j,hj,hle,hbl⟩ := ih (ts.length - (i + 1)) (by omega) hlt rfl
        refine ⟨j,?_,⟨by omega,hle.2⟩,?_⟩
        · rw [if_pos (by simpa using hb),onward_eq ⟨Nat.lt_succ_self i,hlt⟩,hj]
        · rw [dropBlank,dropWhile_cons_of_pos hb]
          exact hbl
      · refine ⟨i,if_neg (by simpa using hb),⟨Nat.le_refl i,hi⟩,?_⟩
        rw [dropBlank,dropWhile_cons_of_neg hb,hd]

lemma partsFrom_cases (depth : Nat) (ts : List Token) : partsFrom depth ts = [ts] ∨
      ∃ part comma rest, ts = part ++ comma :: rest ∧ comma.kind = .comma ∧
        partsFrom depth ts = part :: partsFrom 0 rest := by
  induction ts generalizing depth with
  | nil => exact .inl rfl
  | cons t ts ih =>
    rw [partsFrom]
    split
    · next h =>
      simp only [Bool.and_eq_true,decide_eq_true_eq,beq_iff_eq] at h
      exact .inr ⟨[],t,ts,rfl,h.2,by rw [h.1]⟩
    · rcases ih (depthAfter depth t.kind) with h | ⟨part,comma,rest,rfl,hc,h⟩
      · rw [h]
        exact .inl rfl
      · rw [h]
        exact .inr ⟨t :: part,comma,rest,rfl,hc,rfl⟩

lemma partsFrom_ne_nil (depth : Nat) (ts : List Token) : partsFrom depth ts ≠ [] := by
  rcases partsFrom_cases depth ts with h | ⟨_,_,_,_,_,h⟩ <;> rw [h] <;> exact cons_ne_nil _ _

variable {part : List Token}

lemma infix_of_mem_partsFrom {ts : List Token} (h : part ∈ partsFrom 0 ts) : part <:+: ts := by
  rcases partsFrom_cases 0 ts with hp | ⟨first,comma,rest,rfl,-,hp⟩
  · rw [hp,mem_singleton] at h
    exact h ▸ infix_rfl
  · rw [hp] at h
    rcases mem_cons.mp h with rfl | h
    · exact (prefix_append _ _).isInfix
    · exact (infix_of_mem_partsFrom h).trans ((suffix_cons ..).trans (suffix_append ..)).isInfix
termination_by ts.length

lemma infix_of_mem_commaParts (h : part ∈ commaParts ts) : part <:+: ts := by
  rw [commaParts] at h
  split at h
  · cases h
  · exact infix_of_mem_partsFrom h

lemma sublist_of_mem_commaParts (h : part ∈ commaParts ts) : part.Sublist ts := (infix_of_mem_commaParts h).sublist

lemma isPrefix_trimBlank (ts : List Token) : trimBlank ts <+: dropBlank ts := by
  rw [trimBlank,← reverse_suffix,reverse_reverse]
  exact dropWhile_suffix _

lemma trimBlank_sublist (ts : List Token) : (trimBlank ts).Sublist ts :=
  (isPrefix_trimBlank ts).sublist.trans (dropWhile_suffix _).sublist

lemma slicesFrom_eq (hne : ts ≠ []) (pre part : List Token) {start : Nat}
    (ht : ts = pre ++ part ++ rest) (hs : start = pre.length) (hi : i = start + part.length) :
    slicesFrom ts depth start i rest = pure ((partsFrom depth rest).modifyHead (part ++ ·)) := by
  induction rest generalizing pre part depth start i with
  | nil =>
    have hsl := slice_part ht hs hi
    have he : i = ts.length := by rw [ht,hi,hs,append_nil,length_append]
    rw [slicesFrom,if_neg (by simpa using hne),← he,hsl]
    simp [partsFrom]
  | cons t rest ih =>
    have hsl := slice_part ht hs hi
    rw [slicesFrom,partsFrom]
    by_cases hc : (decide (depth = 0) && t.kind == .comma)
    · have hr : slicesFrom ts depth (i + 1) (i + 1) rest =
          pure ((partsFrom depth rest).modifyHead ([] ++ ·)) :=
        ih (pre ++ part ++ [t]) [] (by simpa using ht) (by simp; omega) rfl
      rw [if_pos hc,if_pos hc,hsl,pure_bind,hr,pure_bind]
      cases partsFrom depth rest <;> simp
    · have hr : slicesFrom ts (depthAfter depth t.kind) start (i + 1) rest =
          pure ((partsFrom (depthAfter depth t.kind) rest).modifyHead ((part ++ [t]) ++ ·)) :=
        ih pre (part ++ [t]) (by simpa using ht) hs (by simp; omega)
      rw [if_neg hc,if_neg hc,hr]
      cases hp : partsFrom (depthAfter depth t.kind) rest with
      | nil => exact absurd hp (partsFrom_ne_nil _ _)
      | cons first ps => simp

lemma commaSlices_eq (ts : List Token) : commaSlices ts = pure (commaParts ts) := by
  cases ts with
  | nil => rfl
  | cons t rest =>
    have h : slicesFrom (t :: rest) 0 0 0 (t :: rest) =
        pure ((partsFrom 0 (t :: rest)).modifyHead ([] ++ ·)) :=
      slicesFrom_eq (cons_ne_nil t rest) [] [] rfl rfl rfl
    rw [commaSlices,h,commaParts]
    cases partsFrom 0 (t :: rest) <;> rfl

end Css.Cursor
