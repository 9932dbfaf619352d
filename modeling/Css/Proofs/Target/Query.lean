import Css.Target.Query
import Mathlib.Data.List.Forall2

/-!
# The grammar of target queries

A query lists entries with commas between them; an entry names a browser and a release of it. A browser's
target is the earliest of the releases listed for it, wherever they stand.
-/
namespace Css
open List Text

lemma Text.splitBy_eq_splitOnP (p : Char → Bool) (s : List Char) : splitBy p s = s.splitOnP p := by
  induction s with
  | nil => rfl
  | cons c s ih =>
    rw [splitBy,ih,splitOnP_cons_eq_if_modifyHead]
    cases h : s.splitOnP p with
    | nil => exact absurd h (splitOnP_ne_nil p s)
    | cons part parts => rfl

lemma Browser.ofName?_eq_some_iff {s : String} {b : Browser} : ofName? s = some b ↔ lower s ∈ b.name :: b.aliases := by
  have hu : ∀ b : Browser,∀ n ∈ b.name :: b.aliases,
      all.find? (fun b' => (b'.name :: b'.aliases).contains n) = some b := by
    intro b; cases b <;> decide
  refine ⟨fun h => ?_,hu b _⟩
  rw [ofName?] at h
  have hc := find?_some h
  exact contains_iff_mem.mp hc

structure Release where
  (major minor patch : Fin 256)

namespace Release
variable {r r' : Release} {s : List Char}

def packed (r : Release) : Nat := Version.pack r.major r.minor r.patch

def NotAfter (r r' : Release) : Prop := r.major < r'.major ∨ r.major = r'.major ∧
    (r.minor < r'.minor ∨ r.minor = r'.minor ∧ r.patch ≤ r'.patch)

lemma packed_le_iff : r.packed ≤ r'.packed ↔ r.NotAfter r' := by
  simp only [packed,Version.pack,NotAfter,Fin.lt_def,Fin.le_def,Fin.ext_iff]; omega

def ofParts? : List (Fin 256) → Option Release
  | [major] => some ⟨major,0,0⟩
  | [major,minor] => some ⟨major,minor,0⟩
  | [major,minor,patch] => some ⟨major,minor,patch⟩
  | _ => none

/-- A part may have a sign, which counts for nothing. -/
def IsPart (n : Fin 256) (s : List Char) : Prop :=
  ∃ digits,digits ≠ [] ∧ (∀ c ∈ digits,c.isDigit = true) ∧ decimalNumber digits = n ∧ (s = digits ∨ s = '+' :: digits)

def IsWritten (r : Release) (s : List Char) : Prop := ∃ ns,Forall₂ IsPart ns (s.splitOn '.') ∧ ofParts? ns = some r

lemma readPart?_eq {digits : List Char} (h : s = '+' :: digits ∨ s.head? ≠ some '+' ∧ s = digits) :
    Version.readPart? s = if digits.isEmpty || !digits.all Char.isDigit then none
      else if decimalNumber digits < 256 then some (decimalNumber digits) else none := by
  unfold Version.readPart?
  obtain rfl | ⟨hs,rfl⟩ := h
  · rfl
  · split
    · exact absurd rfl hs
    · rfl

lemma readPart?_eq_some_iff {m : Nat} : Version.readPart? s = some m ↔ ∃ n,m = Fin.val n ∧ IsPart n s := by
  constructor
  · intro h
    obtain ⟨digits,hs⟩ : ∃ digits,s = '+' :: digits ∨ s.head? ≠ some '+' ∧ s = digits := by
      by_cases hp : s.head? = some '+'
      · exact ⟨s.tail,.inl (eq_cons_of_mem_head? hp)⟩
      · exact ⟨s,.inr ⟨hp,rfl⟩⟩
    rw [readPart?_eq hs] at h
    split_ifs at h with h₁ h₂
    simp only [Bool.or_eq_true,Bool.not_eq_true',not_or,Bool.not_eq_false,all_eq_true] at h₁
    exact ⟨⟨_,h₂⟩,(Option.some.inj h).symm,digits,by simpa using h₁.1,h₁.2,rfl,hs.symm.imp_left (·.2)⟩
  · rintro ⟨n,rfl,digits,hne,hd,hv,hs⟩
    have hs' : s = '+' :: digits ∨ s.head? ≠ some '+' ∧ s = digits := by
      refine hs.symm.imp_right fun he => ⟨fun hp => ?_,he⟩
      cases hd _ (mem_of_mem_head? (he ▸ hp))
    rw [readPart?_eq hs']
    simpa [hne,hv] using hd

lemma mapM_readPart?_eq_some_iff {parts : List (List Char)} {ms : List Nat} :
    parts.mapM Version.readPart? = some ms ↔ ∃ ns,ms = ns.map Fin.val ∧ Forall₂ IsPart ns parts := by
  induction parts generalizing ms with
  | nil => simp [eq_comm]
  | cons part parts ih =>
    simp only [mapM_cons,Option.bind_eq_bind,Option.bind_eq_some_iff,ih,readPart?_eq_some_iff,
      forall₂_cons_right_iff,Option.pure_def,Option.some.injEq]
    constructor
    · rintro ⟨_,⟨n,rfl,hn⟩,_,⟨ns,rfl,hns⟩,rfl⟩
      exact ⟨_,rfl,n,ns,hn,hns,rfl⟩
    · rintro ⟨_,rfl,n,ns,hn,hns,rfl⟩
      exact ⟨_,⟨n,rfl,hn⟩,_,⟨ns,rfl,hns⟩,rfl⟩

lemma read?_eq_some_iff {v : Version} : Version.read? s = some v ↔ ∃ r,v = packed r ∧ r.IsWritten s := by
  rw [Version.read?,splitBy_eq_splitOnP,← splitOn]
  constructor
  · intro h
    cases hm : (s.splitOn '.').mapM Version.readPart? with
    | none => rw [hm] at h; cases h
    | some ms =>
      rw [hm] at h
      obtain ⟨ns,rfl,hp⟩ := mapM_readPart?_eq_some_iff.mp hm
      rcases ns with _ | ⟨a,_ | ⟨b,_ | ⟨c,_ | _⟩⟩⟩ <;> cases h
      · exact ⟨⟨a,0,0⟩,rfl,_,hp,rfl⟩
      · exact ⟨⟨a,b,0⟩,rfl,_,hp,rfl⟩
      · exact ⟨⟨a,b,c⟩,rfl,_,hp,rfl⟩
  · rintro ⟨r,rfl,ns,hp,hr⟩
    rw [mapM_readPart?_eq_some_iff.mpr ⟨ns,rfl,hp⟩]
    rcases ns with _ | ⟨a,_ | ⟨b,_ | ⟨c,_ | _⟩⟩⟩ <;> cases hr <;> rfl

/-- A version does not start like a comparison. -/
lemma IsWritten.exists_cons (h : r.IsWritten s) : ∃ c t,s = c :: t ∧ c ≠ '>' := by
  obtain ⟨ns,hp,-⟩ := h
  cases s with
  | nil =>
    obtain _ | ⟨⟨digits,hne,-,-,hs⟩,-⟩ := hp
    simp_all
  | cons c s =>
    refine ⟨c,s,rfl,?_⟩
    rintro rfl
    rw [splitOn,splitOnP_cons_eq_if_modifyHead,if_neg (by decide)] at hp
    cases hq : s.splitOnP (· == '.') with
    | nil => exact splitOnP_ne_nil _ _ hq
    | cons part parts =>
      rw [hq] at hp
      obtain _ | ⟨⟨digits,-,hd,-,rfl | hs⟩,-⟩ := hp
      · cases hd _ mem_cons_self
      · cases hs

end Release

namespace Targets
variable {targets : Targets} {b : Browser} {r : Release} {listed : List (Browser × Release)}
  {text version : List Char} {rest : List (List Char)}

/-- Before the version there may be a `>=`, as a word of its own or not. -/
def IsEntry (entry : Browser × Release) (text : List Char) : Prop :=
  ∃ name version,words text ∈ [[name,version],[name,['>','='],version],[name,'>' :: '=' :: version]] ∧
    lower (String.ofList name) ∈ entry.1.name :: entry.1.aliases ∧ entry.2.IsWritten version

def IsQuery (listed : List (Browser × Release)) (query : List Char) : Prop := Forall₂ IsEntry listed (query.splitOn ',')

def IsEarliest (listed : List (Browser × Release)) (b : Browser) : Option Version → Prop
  | .some v => ∃ r,(b,r) ∈ listed ∧ v = r.packed ∧ ∀ r',(b,r') ∈ listed → r.NotAfter r'
  | .none => ∀ r,(b,r) ∉ listed

lemma eq_of_dropComparison (h : dropComparison rest = [version]) :
    rest ∈ [[version],[['>','='],version],['>' :: '=' :: version]] := by
  unfold dropComparison at h
  split at h
  · cases h
  split_ifs at h with hc
  · simp [hc,h]
  split at h
  · simp_all
  · simp [h]

lemma dropComparison_of_isWritten (hv : r.IsWritten version)
    (h : rest ∈ [[version],[['>','='],version],['>' :: '=' :: version]]) :
    dropComparison rest = [version] := by
  obtain ⟨c,t,rfl,hc⟩ := hv.exists_cons
  simp only [mem_cons,not_mem_nil,or_false] at h
  obtain rfl | rfl | rfl := h
  · rw [dropComparison,if_neg fun he => hc (List.cons.inj he).1]
    exact fun _ he => hc (List.cons.inj he).1
  · rfl
  · rfl

lemma readEntry_eq_ok_iff {v : Version} : readEntry text = .ok (b,v) ↔ ∃ r,v = Release.packed r ∧ IsEntry (b,r) text := by
  constructor
  · intro h
    unfold readEntry at h
    split at h
    · cases h
    next word rest hw =>
      extract_lets name at h
      split at h
      · cases h
      next hn =>
        split at h
        · cases h
        · cases h
        next version hd =>
          split at h
          · next hv =>
            cases h
            obtain ⟨r,rfl,hr⟩ := Release.read?_eq_some_iff.mp hv
            refine ⟨r,rfl,word,version,?_,Browser.ofName?_eq_some_iff.mp hn,hr⟩
            simpa [hw] using eq_of_dropComparison hd
          · cases h
  · rintro ⟨r,rfl,name,version,hw,hn,hv⟩
    obtain ⟨rest,hr,hw'⟩ : ∃ rest ∈ [[version],[['>','='],version],['>' :: '=' :: version]],
        words text = name :: rest := by
      simpa using hw
    rw [readEntry,hw']
    simp only [Browser.ofName?_eq_some_iff.mpr hn,dropComparison_of_isWritten hv hr,
      Release.read?_eq_some_iff.mpr ⟨r,rfl,hv⟩]

lemma readEntries_eq_ok_iff {t : Targets} {texts : List (List Char)} :
    readEntries targets texts = .ok t ↔ ∃ listed,Forall₂ IsEntry listed texts ∧
      t = listed.foldl (fun t entry => t.lowerTo entry.1 entry.2.packed) targets := by
  induction texts generalizing targets with
  | nil => simp [readEntries,eq_comm]
  | cons text texts ih =>
    rw [readEntries]
    constructor
    · intro h
      split at h
      · cases h
      next he =>
        obtain ⟨r,rfl,hr⟩ := readEntry_eq_ok_iff.mp he
        obtain ⟨listed,hl,rfl⟩ := ih.mp h
        exact ⟨_,.cons hr hl,rfl⟩
    · rintro ⟨_,_ | ⟨he,hl⟩,rfl⟩
      rw [readEntry_eq_ok_iff.mpr ⟨_,rfl,he⟩]
      exact ih.mpr ⟨_,hl,rfl⟩

lemma isEarliest_lowerTo (h : ∀ b,IsEarliest listed b (targets.version b)) (entry : Browser × Release) :
    IsEarliest (listed ++ [entry]) b ((targets.lowerTo entry.1 entry.2.packed).version b) := by
  obtain ⟨b₀,r₀⟩ := entry
  have hb := h b
  simp only [IsEarliest,← Release.packed_le_iff,mem_append,mem_singleton,Prod.mk.injEq,lowerTo,set] at hb ⊢
  split_ifs with he
  · subst he
    cases hv : targets.version b with
    | none =>
      rw [hv] at hb
      exact ⟨r₀,.inr ⟨rfl,rfl⟩,rfl,fun r' hr' => hr'.elim (absurd · (hb r')) fun h' => h'.2 ▸ Nat.le_refl _⟩
    | some v =>
      rw [hv] at hb
      obtain ⟨r,hr,rfl,hmin⟩ := hb
      obtain hle | hle := Nat.le_total r.packed r₀.packed
      · exact ⟨r,.inl hr,Nat.min_eq_left hle,fun r' hr' => hr'.elim (hmin r') fun h' => h'.2 ▸ hle⟩
      · exact ⟨r₀,.inr ⟨rfl,rfl⟩,Nat.min_eq_right hle,fun r' hr' =>
          hr'.elim (fun h' => Nat.le_trans hle (hmin r' h')) fun h' => h'.2 ▸ Nat.le_refl _⟩
  · simpa only [he,false_and,or_false] using hb

lemma isEarliest_foldl (h : ∀ b,IsEarliest listed b (targets.version b)) (more : List (Browser × Release)) :
    IsEarliest (listed ++ more) b ((more.foldl (fun t entry => t.lowerTo entry.1 entry.2.packed) targets).version b) := by
  induction more generalizing listed targets with
  | nil => simpa using h b
  | cons entry more ih =>
    have h' := ih fun b => isEarliest_lowerTo h entry
    rwa [append_assoc] at h'

theorem ofQuery_resolves (query : String) :
    ((∃ targets,ofQuery query = .ok targets) ↔ ∃ listed,IsQuery listed query.toList) ∧
      ∀ listed,IsQuery listed query.toList → ∃ targets,ofQuery query = .ok targets ∧
        ∀ b,IsEarliest listed b (targets.version b) := by
  have hq (t : Targets) : ofQuery query = .ok t ↔ readEntries none (query.toList.splitOn ',') = .ok t := by
    rw [ofQuery,splitBy_eq_splitOnP,splitOn]
    split <;> simp_all
  have hr : ∀ listed,IsQuery listed query.toList → ∃ targets,ofQuery query = .ok targets ∧
      ∀ b,IsEarliest listed b (targets.version b) := by
    intro listed h
    have hnone : ∀ b,IsEarliest [] b (none.version b) := fun b r => not_mem_nil
    exact ⟨_,(hq _).mpr (readEntries_eq_ok_iff.mpr ⟨listed,h,rfl⟩),fun b => isEarliest_foldl hnone listed⟩
  refine ⟨⟨?_,?_⟩,hr⟩
  · rintro ⟨targets,h⟩
    obtain ⟨listed,hl,-⟩ := readEntries_eq_ok_iff.mp ((hq _).mp h)
    exact ⟨listed,hl⟩
  · rintro ⟨listed,h⟩
    obtain ⟨targets,h,-⟩ := hr listed h
    exact ⟨targets,h⟩

/-- A sign is no digit, and a version with one is accepted. -/
theorem ofQuery_signed : '+'.isDigit = false ∧
    (ofQuery "chrome +90").toOption.map (·.version .chrome) = some (some (Version.pack 90 0 0)) := by
  decide +kernel

end Targets
end Css
