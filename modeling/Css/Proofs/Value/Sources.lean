import Css.Proofs.Value.Steps

/-!
# Where components come from

One step of the parser of values takes one token: it adds components to the innermost list, opens a
bracket or closes one.
-/
namespace Css
open List Token Component

def Component.holdsName : Component → Bool
  | ident _ | dimension .. => true
  | _ => false

namespace Value

/-- A component that a token may add. Only identifiers and dimensions have a name from the token. -/
inductive IsOf (t : Token) : Component → Prop
  | ident (hkind : t.kind = .ident) : IsOf t (.ident t.name)
  | dimension (hkind : t.kind = .dimension) : IsOf t (.dimension t.number t.unit)
  | other {c : Component} (hname : c.holdsName = false) : IsOf t c

def isSolid (t : Token) : Bool := t.kind != .whitespace && t.kind != .comment && (t.kind != .delim || t.delim?.isSome)

/-- What one token may do to the open brackets and to the components of the innermost list. -/
inductive Step (file : SourceFile) (dashed : Bool) (t : Token) :
    List Frame → List Component → List Frame → List Component → Prop
  | push {stk : List Frame} {xs new : List Component} (hnew : ∀ c ∈ new, IsOf t c)
      (hfirst : xs = [] → isSolid t = true → ∃ c, new = [c] ∧ c.isWhitespace = false) :
      Step file dashed t stk xs stk (new ++ xs)
  | opening {stk : List Frame} {xs gap : List Component} (hgap : ∀ c ∈ gap, IsOf t c)
      (hfirst : xs = [] → gap = []) :
      Step file dashed t stk xs (⟨t,gap ++ xs⟩ :: stk) []
  | closing {frame : Frame} {stk : List Frame} {xs : List Component} {cts : Value}
      {c : Component} (hclose : frame.close file dashed cts = .ok c) :
      Step file dashed t (frame :: stk) xs stk (c :: frame.before)

lemma exists_pushBlank (xs : List Component) :
    ∃ gap : List Component, pushBlank xs = gap ++ xs ∧ ∀ c ∈ gap, c = .whitespace := by
  unfold pushBlank
  split
  · exact ⟨[],rfl,forall_mem_nil _⟩
  · exact ⟨[.whitespace],rfl,fun c hc => mem_singleton.mp hc⟩

lemma exists_separate (stop start : Nat) (xs : List Component) :
    ∃ gap : List Component, separate stop start xs = gap ++ xs ∧
      (∀ c ∈ gap, c = .whitespace) ∧ (xs = [] → gap = []) := by
  unfold separate
  split
  · rename_i hs
    obtain ⟨gap,hg,hb⟩ := exists_pushBlank xs
    refine ⟨gap,hg,hb,?_⟩
    rintro rfl
    simp at hs
  · exact ⟨[],rfl,forall_mem_nil _,fun _ => rfl⟩

lemma exists_pushNumeric (stop : Nat) (t : Token) (c : Component) (xs : List Component) :
    ∃ sign : List Component, pushNumeric stop t c xs = c :: (sign ++ xs) ∧
      (∀ d ∈ sign, d = .delim '+') ∧ (xs = [] → sign = []) := by
  unfold pushNumeric
  split
  · rename_i hp
    refine ⟨[.delim '+'],rfl,fun d hd => mem_singleton.mp hd,?_⟩
    rintro rfl
    simp at hp
  · exact ⟨[],rfl,forall_mem_nil _,fun _ => rfl⟩

lemma holdsName_hashComponent (name : String) : (hashComponent name).holdsName = false := by
  unfold hashComponent
  split <;> rfl

lemma isWhitespace_hashComponent (name : String) : (hashComponent name).isWhitespace = false := by
  unfold hashComponent
  split <;> rfl

variable {file : SourceFile} {dashed : Bool} {t : Token} {c : Component} {range : Option (List Token)}

lemma isOf_of_leaf? (h : leaf? file t range = some c) : IsOf t c ∧ c.isWhitespace = false := by
  rw [leaf?.eq_def] at h
  cases hk : t.kind with
  | ident =>
    rw [hk] at h
    cases range with
    | some ps =>
      cases h
      exact ⟨.other rfl,rfl⟩
    | none =>
      cases h
      exact ⟨.ident hk,rfl⟩
  | dimension =>
    rw [hk] at h; cases h
    exact ⟨.dimension hk,rfl⟩
  | hash | idHash =>
    rw [hk] at h; cases h
    exact ⟨.other (holdsName_hashComponent _),isWhitespace_hashComponent _⟩
  | delim =>
    rw [hk] at h
    obtain ⟨d,-,rfl⟩ := Option.map_eq_some_iff.mp h
    exact ⟨.other rfl,rfl⟩
  | _ =>
    rw [hk] at h
    cases h <;> exact ⟨.other rfl,rfl⟩

lemma exists_leaf? (file : SourceFile) (range : Option (List Token)) (hl : t.kind.isLeaf)
    (hb : t.kind.isBarred = false) (hs : isSolid t) : ∃ c, leaf? file t range = some c := by
  rw [leaf?.eq_def]
  cases hk : t.kind with
  | ident => cases range <;> exact ⟨_,rfl⟩
  | delim =>
    rw [isSolid,hk] at hs
    obtain ⟨d,hd⟩ := Option.isSome_iff_exists.mp hs
    exact ⟨.delim d,by rw [hd]; rfl⟩
  | whitespace | comment =>
    rw [isSolid,hk] at hs; cases hs
  | badString | badUrl | cdo | cdc | eof =>
    rw [hk] at hb; cases hb
  | function | leftParen | leftBracket | leftBrace | rightParen | rightBracket | rightBrace =>
    rw [hk] at hl; cases hl
  | _ => exact ⟨_,rfl⟩

variable {stk : List Frame} {xs : List Component} {stop : Nat}

lemma step_addLeaf (hl : t.kind.isLeaf) (hb : t.kind.isBarred = false) :
    Step file dashed t stk xs stk (addLeaf file stop t range xs) := by
  obtain ⟨gap,hg,hw,hn⟩ := exists_separate stop t.span.start xs
  have hgp : ∀ c ∈ gap, IsOf t c := by
    intro c hc
    rw [hw c hc]
    exact .other rfl
  have hsl := exists_leaf? file range hl hb
  rw [addLeaf,hg]
  by_cases hk : t.kind = .whitespace
  · obtain ⟨more,hm,hw'⟩ := exists_pushBlank (gap ++ xs)
    rw [if_pos hk,hm,← append_assoc]
    refine .push (forall_mem_append.mpr ⟨fun c hc => ?_,hgp⟩) fun _ hs => ?_
    · rw [hw' c hc]
      exact .other rfl
    · rw [isSolid,hk] at hs; cases hs
  · rw [if_neg hk]
    cases hc : leaf? file t range with
    | none =>
      refine .push hgp fun _ hs => ?_
      obtain ⟨c,hc'⟩ := hsl hs
      cases hc.symm.trans hc'
    | some c =>
      obtain ⟨hof,hws⟩ := isOf_of_leaf? hc
      dsimp only
      split
      · obtain ⟨sign,hs,hp,hsn⟩ := exists_pushNumeric stop t c (gap ++ xs)
        rw [hs,← append_assoc,← cons_append]
        refine .push (forall_mem_cons.mpr ⟨hof,forall_mem_append.mpr ⟨fun d hd => ?_,hgp⟩⟩) ?_
        · rw [hp d hd]
          exact .other rfl
        · intro hi _
          rw [hn hi,hi] at hsn
          exact ⟨c,by rw [hsn rfl,hn hi]; rfl,hws⟩
      · rw [← cons_append]
        exact .push (forall_mem_cons.mpr ⟨hof,hgp⟩) fun hi _ => ⟨c,by rw [hn hi],hws⟩

lemma step_parseFrom {rest : List Token} {value : Value}
    (h : parseFrom file dashed 0 stk xs stop (t :: rest) = .ok value) :
    ∃ skip stack' items' stop', parseFrom file dashed skip stack' items' stop' rest = .ok value ∧
      Step file dashed t stk xs stack' items' := by
  rcases kind_cases t.kind with hb | ⟨hb,hl | ho | hc⟩
  · exact absurd h (parseFrom_barred hb)
  · rw [parseFrom_leaf hl hb] at h
    exact ⟨_,_,_,_,h,step_addLeaf hl hb⟩
  · obtain ⟨gap,hg,hw,hn⟩ := exists_separate stop t.span.start xs
    rw [parseFrom_opening ho,hg] at h
    refine ⟨_,_,_,_,h,.opening (fun c hc => ?_) hn⟩
    rw [hw c hc]
    exact .other rfl
  · obtain ⟨frame,stk,c,rfl,hcl,h⟩ := close_of_parseFrom hc h
    exact ⟨_,_,_,_,h,.closing hcl⟩

lemma trim_sublist (value : Value) : (trim value).Sublist value := by
  rw [trim,← reverse_sublist,reverse_reverse]
  exact (dropWhile_sublist _).trans (reverse_sublist.mpr (dropWhile_sublist _))

def AllItems (p : Component → Prop) (stk : List Frame) (xs : List Component) : Prop :=
  (∀ c ∈ xs, p c) ∧ ∀ frame ∈ stk, ∀ c ∈ frame.before, p c

variable {p : Component → Prop} {ts : List Token}

lemma AllItems.step {stack' : List Frame} {items' : List Component}
    (hcl : ∀ (frame : Frame) (cts : Value) (c : Component), frame.close file dashed cts = .ok c → p c)
    (hof : ∀ c, IsOf t c → p c) (h : AllItems p stk xs)
    (hs : Step file dashed t stk xs stack' items') : AllItems p stack' items' := by
  cases hs with
  | push hn _ =>
    refine ⟨fun c hc => ?_,h.2⟩
    rcases mem_append.mp hc with hc | hc
    · exact hof c (hn c hc)
    · exact h.1 c hc
  | opening hg _ =>
    refine ⟨forall_mem_nil _,fun frame hfr => ?_⟩
    rcases mem_cons.mp hfr with rfl | hfr
    · intro c hc
      rcases mem_append.mp hc with hc | hc
      · exact hof c (hg c hc)
      · exact h.1 c hc
    · exact h.2 frame hfr
  | closing hc =>
    rename_i frame cts c
    refine ⟨fun d hd => ?_,fun f hf => h.2 f (mem_cons_of_mem _ hf)⟩
    rcases mem_cons.mp hd with rfl | hd
    · exact hcl frame cts d hc
    · exact h.2 frame mem_cons_self d hd

variable {value cts : Value}

/-- What every step preserves holds at the end of a run, where no bracket is open. -/
lemma run_parseFrom {P : List Frame → List Component → Prop} (hs : ∀ t ∈ ts, ∀ stk xs stack' items', P stk xs →
      Step file dashed t stk xs stack' items' → P stack' items') {skip : Nat} (hp : P stk xs)
    (h : parseFrom file dashed skip stk xs stop ts = .ok value) :
    ∃ xs, P [] xs ∧ value = trim xs.reverse := by
  induction ts generalizing skip stop stk xs with
  | nil =>
    cases stk with
    | nil =>
      rw [parseFrom] at h; cases h
      exact ⟨xs,hp,rfl⟩
    | cons frame stk =>
      rw [parseFrom] at h; cases h
  | cons t rest ih =>
    obtain ⟨ht,hr⟩ := forall_mem_cons.mp hs
    cases skip with
    | succ skip =>
      rw [parseFrom] at h
      exact ih hr hp h
    | zero =>
      obtain ⟨_,_,_,_,hn,hst⟩ := step_parseFrom h
      exact ih hr (ht _ _ _ _ hp hst) hn

lemma all_parseFrom (hcl : ∀ (frame : Frame) (cts : Value) (c : Component), frame.close file dashed cts = .ok c → p c)
    (hof : ∀ t ∈ ts, ∀ c, IsOf t c → p c) {skip : Nat} (ha : AllItems p stk xs)
    (h : parseFrom file dashed skip stk xs stop ts = .ok value) : ∀ c ∈ value, p c := by
  obtain ⟨xs,hi,rfl⟩ := run_parseFrom (fun t ht _ _ _ _ ha hs => ha.step hcl (hof t ht) hs) ha h
  exact fun c hc => hi.1 c (mem_reverse.mp ((trim_sublist _).mem hc))

lemma checks_of_close {frame : Frame} (h : frame.close file dashed cts = .ok c) :
    c.holdsName = false ∧ c.isWhitespace = false := by
  cases isMade_of_close h <;> exact ⟨rfl,rfl⟩

/-- What holds of the components that tokens make, and of those that hold no name of a token, holds of
all components of a value. -/
lemma all_of_parse (ho : ∀ c : Component, c.holdsName = false → p c)
    (hof : ∀ t ∈ ts, ∀ c, IsOf t c → p c) (h : parse file dashed ts = .ok value) :
    ∀ c ∈ value, p c :=
  all_parseFrom (fun _ _ c hc => ho c (checks_of_close hc).1) hof ⟨forall_mem_nil _,forall_mem_nil _⟩ h

def bottom : List Frame → List Component → List Component
  | [], xs => xs
  | frame :: stk, _ => bottom stk frame.before

section
variable {p : Component → Bool} {t : Token} {stk stack' : List Frame} {xs items' : List Component}

lemma bottom_append (h : (bottom stk xs).getLast?.any p)
    (new : List Component) : (bottom stk (new ++ xs)).getLast?.any p := by
  cases stk with
  | nil =>
    change (new ++ xs).getLast?.any p = true
    change xs.getLast?.any p = true at h
    rw [getLast?_append]
    cases hl : xs.getLast? with
    | none =>
      rw [hl] at h; cases h
    | some c =>
      rw [hl] at h
      exact h
  | cons frame stk => exact h

lemma first_step (h : (bottom stk xs).getLast?.any p) (hs : Step file dashed t stk xs stack' items') :
    (bottom stack' items').getLast?.any p := by
  cases hs with
  | push _ _ => exact bottom_append h _
  | opening _ _ => exact bottom_append h _
  | closing _ =>
    rename_i frame _ c _
    have hb : (bottom stack' frame.before).getLast?.any p := h
    exact bottom_append hb [c]

lemma open_step (hcl : ∀ (frame : Frame) (cts : Value) (c : Component), frame.close file dashed cts = .ok c → p c)
    (h : bottom stk xs = []) (hne : stk ≠ [])
    (hs : Step file dashed t stk xs stack' items') :
    (bottom stack' items').getLast?.any p ∨ bottom stack' items' = [] ∧ stack' ≠ [] := by
  cases hs with
  | push _ _ =>
    cases stk with
    | nil => exact absurd rfl hne
    | cons frame stk => exact .inr ⟨h,hne⟩
  | opening _ _ =>
    cases stk with
    | nil => exact absurd rfl hne
    | cons frame stk => exact .inr ⟨h,cons_ne_nil _ _⟩
  | closing hc =>
    rename_i frame cts c
    cases stack' with
    | nil =>
      have hb : frame.before = [] := h
      left
      rw [hb]
      exact hcl frame cts c hc
    | cons frame' stk => exact .inr ⟨h,cons_ne_nil _ _⟩

variable {value : Value}

lemma head?_trim (hb : p .whitespace = false) (h : value.head?.any p) : (trim value).head?.any p := by
  cases value with
  | nil => cases h
  | cons c value =>
    have hc : p c := h
    have hs : c.isWhitespace = false := by
      cases c with
      | whitespace => exact absurd (hb.symm.trans hc) Bool.false_ne_true
      | _ => rfl
    have hk : (value.reverse ++ [c]).dropWhile isWhitespace = value.reverse.dropWhile isWhitespace ++ [c] := by
      have hl : [c].dropWhile isWhitespace = [c] := dropWhile_cons_of_neg (by simp [hs])
      rw [dropWhile_append,hl]
      split
      · rename_i he
        rw [isEmpty_iff.mp he,nil_append]
      · rfl
    rw [trim,dropWhile_cons_of_neg (by simp [hs]),reverse_cons,hk,reverse_append]
    exact hc

lemma first_parseFrom (hb : p .whitespace = false) {skip : Nat} (hf : (bottom stk xs).getLast?.any p)
    (h : parseFrom file dashed skip stk xs stop ts = .ok value) : value.head?.any p := by
  obtain ⟨xs,hi,rfl⟩ := run_parseFrom (P := fun stk xs => (bottom stk xs).getLast?.any p)
    (fun _ _ _ _ _ _ hf hs => first_step hf hs) hf h
  apply head?_trim hb
  rw [head?_reverse]
  exact hi

lemma open_parseFrom (hbl : p .whitespace = false)
    (hc : ∀ (frame : Frame) (cts : Value) (c : Component), frame.close file dashed cts = .ok c → p c)
    {skip : Nat} (hb : bottom stk xs = []) (hne : stk ≠ [])
    (h : parseFrom file dashed skip stk xs stop ts = .ok value) : value.head?.any p := by
  obtain ⟨xs,hi | hi,rfl⟩ := run_parseFrom (P := fun stk xs =>
      (bottom stk xs).getLast?.any p ∨ bottom stk xs = [] ∧ stk ≠ [])
    (fun _ _ _ _ _ _ hp hs => hp.elim (fun hf => .inl (first_step hf hs))
      fun ho => open_step hc ho.1 ho.2 hs) (.inr ⟨hb,hne⟩) h
  · apply head?_trim hbl
    rw [head?_reverse]
    exact hi
  · exact absurd rfl hi.2

end

def isNamed (name : String) : Component → Bool
  | .ident n => n == name
  | _ => false

def isForeign : Component → Bool
  | .ident _ | .whitespace => false
  | _ => true

lemma isForeign_of_checks (hn : c.holdsName = false) (hb : c.isWhitespace = false) : isForeign c := by
  cases c with
  | ident _ => cases hn
  | whitespace => cases hb
  | _ => rfl

lemma ident_of_parse {rest : List Token} {name : String} (hs : isSolid t)
    (h : parse file dashed (t :: rest) = .ok (.ident name :: value)) :
    t.kind = .ident ∧ t.name = name := by
  obtain ⟨skip,stk,xs,stop,hn,hst⟩ := step_parseFrom h
  have hfr (hf : (ident name :: value).head?.any isForeign) : t.kind = .ident ∧ t.name = name := Bool.noConfusion hf
  cases hst with
  | push hnw hf =>
    obtain ⟨c,rfl,hb⟩ := hf rfl hs
    cases hnw c mem_cons_self with
    | ident hk =>
      have hsl : (bottom [] [.ident t.name]).getLast?.any (isNamed t.name) := beq_self_eq_true t.name
      have hnm : isNamed t.name (.ident name) := first_parseFrom rfl hsl hn
      exact ⟨hk,(eq_of_beq hnm).symm⟩
    | dimension hk => exact hfr (first_parseFrom (p := isForeign) rfl rfl hn)
    | other hnm =>
      have hc : (bottom [] [c]).getLast?.any isForeign := isForeign_of_checks hnm hb
      exact hfr (first_parseFrom rfl hc hn)
  | opening hg hf =>
    rw [hf rfl] at hn
    refine hfr (open_parseFrom (p := isForeign) rfl ?_ rfl (cons_ne_nil _ _) hn)
    intro frame cts c hc
    exact isForeign_of_checks (checks_of_close hc).1 (checks_of_close hc).2

end Value
end Css
