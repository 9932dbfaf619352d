import Css.SourceMap.Basic
import Mathlib.Algebra.Order.Ring.Int

/-!
# Reading source maps

A reader for the text of a version 3 map, and that it reads what was recorded: all mappings in the order
of the generated text, those of one position in the order in which they were recorded. The
digits of a number are those that a loop over words of 64 bits takes off.
-/
namespace Css
open List
namespace Vlq

def digit? (c : Char) : Option Nat := alphabet.idxOf? c

def decodeNat? : List Char → Option (Nat × List Char)
  | [] => none
  | c :: rest => do
    let digit ← digit? c
    if digit < 32 then return (digit,rest)
    else
      let (high,rest) ← decodeNat? rest
      return (digit - 32 + 32 * high,rest)

def ofZigzag (n : Nat) : Int := if n % 2 = 0 then (n / 2 : Nat) else -(n / 2 : Nat)

def decode? (text : List Char) : Option (Int × List Char) := (decodeNat? text).map fun found => (ofZigzag found.1,found.2)

lemma length_decodeNat? {text rest : List Char} {n : Nat} (h : decodeNat? text = some (n,rest)) :
    rest.length < text.length := by
  induction text generalizing n rest with
  | nil => cases h
  | cons c text ih =>
    obtain ⟨digit,-,h⟩ := Option.bind_eq_some_iff.mp h
    split at h
    · cases h
      exact Nat.lt_succ_self _
    · obtain ⟨found,hf,h⟩ := Option.bind_eq_some_iff.mp h
      cases h
      exact Nat.lt_succ_of_lt (ih hf)

lemma length_decode? {text rest : List Char} {n : Int} (h : decode? text = some (n,rest)) :
    rest.length < text.length := by
  obtain ⟨found,hf,h⟩ := Option.map_eq_some_iff.mp h
  cases h
  exact length_decodeNat? hf

lemma digit?_digitChar {digit : Nat} (h : digit < 64) : digit? (digitChar digit) = some digit := by
  have ha : ∀ d : Fin 64, digit? (digitChar d) = some d.val := by decide +kernel
  exact ha ⟨digit,h⟩

lemma decodeNat?_encodeNat (n : Nat) (rest : List Char) : decodeNat? (encodeNat n ++ rest) = some (n,rest) := by
  induction n using Nat.strongRecOn with
  | ind n ih =>
    rw [encodeNat]
    split
    · rename_i hs
      rw [singleton_append,decodeNat?,digit?_digitChar (by omega)]
      simp [hs]
    · rename_i hl
      rw [cons_append,decodeNat?,digit?_digitChar (by omega),ih (n / 32) (by omega)]
      have hd : ¬n % 32 + 32 < 32 := by omega
      simp [hd,Nat.mod_add_div n 32]

lemma ofZigzag_zigzag (value : Int) : ofZigzag (zigzag value) = value := by
  unfold ofZigzag zigzag
  split <;> split <;> omega

lemma decode?_encode (value : Int) (rest : List Char) : decode? (encode value ++ rest) = some (value,rest) := by
  rw [decode?,encode,decodeNat?_encodeNat,Option.map_some,ofZigzag_zigzag]

end Vlq

namespace SourceMap

def isSeparator (c : Char) : Bool := c == ',' || c == ';'

def quantities? (text : List Char) : Option (List Int) := match text with
  | [] => some []
  | c :: text =>
    match h : Vlq.decode? (c :: text) with
    | none => none
    | some (n,rest) =>
      have := Vlq.length_decode? h
      (quantities? rest).map (n :: ·)
termination_by text.length
decreasing_by exact this

/-- Where a reader stands: on a line of the generated text, with the values that the next differences
refer to. -/
structure Reader where
  line : Nat := 0
  column : Int := 0
  source : Int := 0
  originLine : Int := 0
  originColumn : Int := 0
  name : Int := 0

namespace Reader

def nextLine (r : Reader) : Reader := { r with line := r.line + 1, column := 0 }

def mapping? (r : Reader) (origin : Option Origin) : Option Mapping :=
  r.column.toNat?.map fun column => ⟨r.line,column,origin⟩

def origin? (r : Reader) (name : Option Nat) : Option Origin := do
  return ⟨← r.source.toNat?,← r.originLine.toNat?,← r.originColumn.toNat?,name⟩

/-- The mapping of a segment and the reader behind it. A segment has one, four or five quantities. -/
def segment? (r : Reader) : List Int → Option (Mapping × Reader)
  | [column] => do
    let r := { r with column := r.column + column }
    return (← r.mapping? none,r)
  | [column,source,line,originColumn] => do
    let r := { r with
      column := r.column + column
      source := r.source + source
      originLine := r.originLine + line
      originColumn := r.originColumn + originColumn }
    return (← r.mapping? (← r.origin? none),r)
  | [column,source,line,originColumn,name] => do
    let r := { r with
      column := r.column + column
      source := r.source + source
      originLine := r.originLine + line
      originColumn := r.originColumn + originColumn
      name := r.name + name }
    return (← r.mapping? (← r.origin? (← r.name.toNat?)),r)
  | _ => none

end Reader

/-- The mappings that are left: a semicolon goes to the next line, a comma to the next segment. -/
def decodeFrom (r : Reader) (text : List Char) : Option (List Mapping) := match text with
  | [] => some []
  | c :: text =>
    if c = ';' then decodeFrom r.nextLine text
    else if c = ',' then decodeFrom r text
    else do
      let (m,r) ← r.segment? (← quantities? (c :: text.takeWhile fun c => !isSeparator c))
      return m :: (← decodeFrom r (text.dropWhile fun c => !isSeparator c))
termination_by text.length
decreasing_by
  · exact Nat.lt_succ_self _
  · exact Nat.lt_succ_self _
  · exact Nat.lt_succ_of_le (dropWhile_suffix _).length_le

def decode? (text : String) : Option (List Mapping) := decodeFrom {} text.toList

lemma encodeNat_ne_nil (n : Nat) : Vlq.encodeNat n ≠ [] := by
  rw [Vlq.encodeNat]
  split <;> simp

lemma not_isSeparator_digitChar (digit : Nat) : isSeparator (Vlq.digitChar digit) = false := by
  by_cases h : digit < 64
  · have ha : ∀ d : Fin 64, isSeparator (Vlq.digitChar d) = false := by decide +kernel
    exact ha ⟨digit,h⟩
  · have hl : Vlq.alphabet.length = 64 := by decide +kernel
    rw [Vlq.digitChar,getD_eq_getElem?_getD,getElem?_eq_none (by omega)]; rfl

lemma not_isSeparator_encodeNat (n : Nat) : ∀ c ∈ Vlq.encodeNat n, isSeparator c = false := by
  induction n using Nat.strongRecOn with
  | ind n ih =>
    rw [Vlq.encodeNat]
    split
    · intro c hc
      rw [mem_singleton.mp hc]
      exact not_isSeparator_digitChar n
    · intro c hc
      rcases mem_cons.mp hc with rfl | hc
      · exact not_isSeparator_digitChar _
      · exact ih (n / 32) (by omega) c hc

lemma not_isSeparator_flatMap (vs : List Int) : ∀ c ∈ vs.flatMap Vlq.encode, isSeparator c = false := by
  intro c hc
  obtain ⟨value,-,hc⟩ := mem_flatMap.mp hc
  exact not_isSeparator_encodeNat _ c hc

lemma quantities?_flatMap (values : List Int) : quantities? (values.flatMap Vlq.encode) = some values := by
  induction values with
  | nil => rw [flatMap_nil,quantities?]
  | cons value values ih =>
    rw [flatMap_cons]
    cases ht : Vlq.encode value ++ values.flatMap Vlq.encode with
    | nil => exact absurd (append_eq_nil_iff.mp ht).1 (encodeNat_ne_nil _)
    | cons c text =>
      have hd := Vlq.decode?_encode value (values.flatMap Vlq.encode)
      rw [ht] at hd
      rw [quantities?]
      split
      · rename_i hn
        rw [hd] at hn; cases hn
      · rename_i n rest hs
        rw [hd] at hs; cases hs
        rw [ih,Option.map_some]

def Cursor.reader (cursor : Cursor) : Reader where
  line := cursor.line
  column := cursor.column
  source := cursor.source
  originLine := cursor.originLine
  originColumn := cursor.originColumn
  name := cursor.name

lemma segment?_segment (cursor : Cursor) {m : Mapping} (hl : cursor.line = m.line) :
    cursor.reader.segment? (segment cursor m) = some (m,(advance cursor m).reader) := by
  have hs : ∀ a b : Int, a + (b - a) = b := fun a b => by omega
  have hn : ∀ n : Nat, (n : Int).toNat? = some n := fun _ => rfl
  obtain ⟨line,column,origin⟩ := m
  subst hl
  cases origin with
  | none =>
    simp [segment,advance,Cursor.reader,Reader.segment?,Reader.mapping?,hs,hn]
  | some o =>
    obtain ⟨src,originLine,originColumn,name⟩ := o
    cases name with
    | none =>
      simp [segment,advance,Cursor.reader,Reader.segment?,Reader.mapping?,Reader.origin?,hs,hn]
    | some n =>
      simp [segment,advance,Cursor.reader,Reader.segment?,Reader.mapping?,Reader.origin?,hs,hn]

def Cursor.onLine (cursor : Cursor) (line : Nat) : Cursor :=
  if line - cursor.line = 0 then cursor else { cursor with line, column := 0, started := false }

lemma decodeFrom_semicolons (cursor : Cursor) {line : Nat} (h : cursor.line ≤ line) (text : List Char) :
    decodeFrom cursor.reader (List.replicate (line - cursor.line) ';' ++ text) =
      decodeFrom (cursor.onLine line).reader text := by
  have hl : ∀ (k : Nat) (r : Reader), decodeFrom r (List.replicate k ';' ++ text) =
      decodeFrom (if k = 0 then r else { r with line := r.line + k, column := 0 }) text := by
    intro k
    induction k with
    | zero => exact fun _ => rfl
    | succ k ih =>
      intro r
      rw [replicate_succ,cons_append,decodeFrom,if_pos rfl,ih,Reader.nextLine]
      congr 1
      split
      · simp_all
      · simp [Nat.add_assoc,Nat.add_comm 1 k]
  rw [hl,Cursor.onLine]
  congr 1
  split
  · rfl
  · simp [Cursor.reader,Nat.add_sub_of_le h]

lemma decodeFrom_comma (cursor : Cursor) (text : List Char) :
    decodeFrom cursor.reader ((if cursor.started then [','] else []) ++ text) = decodeFrom cursor.reader text := by
  split
  · rw [singleton_append,decodeFrom,if_neg (by decide),if_pos rfl]
  · rfl

lemma decodeFrom_segment (cursor : Cursor) {m : Mapping} (hl : cursor.line = m.line)
    {text : List Char} (ht : ∀ c ∈ text.head?, isSeparator c) :
    decodeFrom cursor.reader ((segment cursor m).flatMap Vlq.encode ++ text) =
      (decodeFrom (advance cursor m).reader text).map (m :: ·) := by
  have hd := not_isSeparator_flatMap (segment cursor m)
  have hq := quantities?_flatMap (segment cursor m)
  have hne : (segment cursor m).flatMap Vlq.encode ≠ [] := by
    rw [segment,flatMap_cons]
    exact fun h => encodeNat_ne_nil _ (append_eq_nil_iff.mp h).1
  cases hs : (segment cursor m).flatMap Vlq.encode with
  | nil => exact absurd hs hne
  | cons c digits =>
    rw [hs] at hd hq
    have hf := hd c mem_cons_self
    have hr : ∀ c ∈ digits, (!isSeparator c) := fun c hc => by
      rw [hd c (mem_cons_of_mem _ hc)]; rfl
    have htk : (digits ++ text).takeWhile (fun c => !isSeparator c) = digits := by
      rw [takeWhile_append_of_pos hr]
      cases text with
      | nil => simp
      | cons d text => simp [ht d rfl]
    have hdr : (digits ++ text).dropWhile (fun c => !isSeparator c) = text := by
      rw [dropWhile_append_of_pos hr]
      cases text with
      | nil => rfl
      | cons d text => simp [ht d rfl]
    have hsm : c ≠ ';' := by
      rintro rfl
      cases hf
    have hcm : c ≠ ',' := by
      rintro rfl
      cases hf
    rw [cons_append,decodeFrom,if_neg hsm,if_neg hcm,htk,hdr,hq]
    change (cursor.reader.segment? (segment cursor m)).bind _ = _
    rw [segment?_segment cursor hl,Option.bind_some]
    exact Option.map_eq_bind.symm

lemma isSeparator_head?_encodeFrom {cursor : Cursor} (h : cursor.started)
    (ms : List Mapping) : ∀ c ∈ (encodeFrom cursor ms).head?, isSeparator c := by
  cases ms with
  | nil => exact fun c hc => nomatch hc
  | cons m ms =>
    intro c hc
    rw [encodeFrom] at hc
    cases hl : m.line - cursor.line with
    | zero =>
      simp [hl,h] at hc
      rw [← hc]; rfl
    | succ lines =>
      simp [hl,replicate_succ] at hc
      rw [← hc]; rfl

lemma decodeFrom_encodeFrom (cursor : Cursor) {ms : List Mapping} (hs : ∀ m ∈ ms, cursor.line ≤ m.line)
    (hsr : ms.Pairwise fun a b => a.line ≤ b.line) :
    decodeFrom cursor.reader (encodeFrom cursor ms) = some ms := by
  induction ms generalizing cursor with
  | nil => rw [encodeFrom,decodeFrom]
  | cons m ms ih =>
    obtain ⟨hf,hr⟩ := pairwise_cons.mp hsr
    have hle := hs m mem_cons_self
    have hl : (cursor.onLine m.line).line = m.line := by
      unfold Cursor.onLine
      split
      · omega
      · rfl
    have ha : (advance (cursor.onLine m.line) m).line = m.line := by
      unfold advance
      split <;> exact hl
    have hst : (advance (cursor.onLine m.line) m).started := by
      unfold advance
      split <;> rfl
    rw [encodeFrom,append_assoc,append_assoc,decodeFrom_semicolons cursor hle]
    change decodeFrom _ ((if (cursor.onLine m.line).started then [','] else []) ++ _) = _
    rw [decodeFrom_comma]
    change decodeFrom _ ((segment (cursor.onLine m.line) m).flatMap Vlq.encode ++
      encodeFrom (advance (cursor.onLine m.line) m) ms) = _
    rw [decodeFrom_segment _ hl (isSeparator_head?_encodeFrom hst ms),ih _ _ hr]
    · rfl
    · intro m' hm'
      rw [ha]
      exact hf m' hm'

/-- Whether a mapping stands before another one in the generated text, or at the same position. -/
def precedes (a b : Mapping) : Bool := a.line < b.line || (a.line == b.line && a.column ≤ b.column)

lemma precedes_iff {a b : Mapping} : precedes a b ↔ a.line < b.line ∨ a.line = b.line ∧ a.column ≤ b.column := by
  simp [precedes]

lemma precedes_trans (a b c : Mapping) (hab : precedes a b) (hbc : precedes b c) : precedes a c := by
  rw [precedes_iff] at *
  omega

lemma precedes_total (a b : Mapping) : (precedes a b || precedes b a) := by
  rw [Bool.or_eq_true,precedes_iff,precedes_iff]; omega

lemma pairwise_sorted (ms : List Mapping) : (sorted ms).Pairwise fun a b => precedes a b = true :=
  pairwise_mergeSort precedes_trans precedes_total ms

lemma sorted_perm (ms : List Mapping) : (sorted ms).Perm ms := mergeSort_perm ms _

lemma filter_sorted (ms : List Mapping) (line column : Nat) :
    (sorted ms).filter (fun m => m.line == line && m.column == column) =
      ms.filter (fun m => m.line == line && m.column == column) := by
  have hsm : (ms.filter fun m => m.line == line && m.column == column).Pairwise fun a b => precedes a b = true := by
    rw [pairwise_iff_forall_sublist]
    intro a b hab
    have hm := hab.subset
    have ha := (mem_filter.mp (hm mem_cons_self)).2
    have hb := (mem_filter.mp (hm (mem_cons_of_mem a (mem_singleton_self b)))).2
    simp only [Bool.and_eq_true,beq_iff_eq] at ha hb
    rw [precedes_iff]; omega
  have hs := (sublist_mergeSort precedes_trans precedes_total hsm
    filter_sublist).filter fun m => m.line == line && m.column == column
  simp only [filter_filter,Bool.and_self] at hs
  exact (hs.eq_of_length ((sorted_perm ms).filter _).length_eq.symm).symm

lemma mappings_foldl (map : SourceMap) (calls : List Mapping) :
    (calls.foldl addMapping map).mappings = map.mappings ++ calls := by
  induction calls generalizing map with
  | nil => simp
  | cons m calls ih => rw [foldl_cons,ih,addMapping,append_assoc,singleton_append]

/-- The text of a map reads as the mappings that were recorded, in the order of their positions, and
those of one position in the order in which they were recorded. -/
theorem decode?_mappingsText (map : SourceMap) (calls : List Mapping) :
    ∃ ms, decode? (calls.foldl addMapping map).mappingsText = some ms ∧
      ms.Perm (map.mappings ++ calls) ∧
      ms.Pairwise (fun a b => a.line < b.line ∨ a.line = b.line ∧ a.column ≤ b.column) ∧
      ∀ line column, ms.filter (fun m => m.line == line && m.column == column) =
        (map.mappings ++ calls).filter fun m => m.line == line && m.column == column := by
  have hsorted := (pairwise_sorted (map.mappings ++ calls)).imp precedes_iff.mp
  refine ⟨sorted (map.mappings ++ calls), ?_, sorted_perm _, hsorted, filter_sorted _⟩
  rw [decode?, mappingsText, mappings_foldl, String.toList_ofList]
  exact decodeFrom_encodeFrom {} (fun m _ => Nat.zero_le _)
    (hsorted.imp fun h => by omega)

end SourceMap

namespace Vlq
open BitVec

def word (value : Int) : BitVec 64 :=
  if value < 0 then (-BitVec.ofInt 64 value) <<< 1 ||| 1 else BitVec.ofInt 64 value <<< 1

/-- The digits of a word, five bits at a time. The sixth bit says that there are more. -/
def wordDigits (w : BitVec 64) : List Char :=
  if BitVec.slt 0 (w.sshiftRight 5) then
    digitChar (w &&& 31 ||| 32).toNat :: wordDigits (w.sshiftRight 5)
  else [digitChar (w &&& 31).toNat]
termination_by w.toInt.toNat
decreasing_by
  rename_i h
  rw [slt_iff_toInt_lt,toInt_sshiftRight,Int.shiftRight_eq_div_pow] at h
  rw [toInt_sshiftRight,Int.shiftRight_eq_div_pow]
  have hz : (0 : BitVec 64).toInt = 0 := rfl
  omega

lemma toNat_word {value : Int} (h : value.natAbs < 2 ^ 62) : (word value).toNat = zigzag value := by
  have hd (w : BitVec 64) (hw : w.toNat < 2 ^ 62) : (w <<< 1).toNat = 2 * w.toNat := by
    rw [toNat_shiftLeft,Nat.shiftLeft_eq]
    omega
  rw [word,zigzag]
  split
  · have hn : (-BitVec.ofInt 64 value).toNat = value.natAbs := by
      rw [← ofInt_neg,toNat_ofInt]
      omega
    have he := hd _ (hn ▸ h)
    rw [toNat_or,he,hn]
    exact (Nat.two_pow_add_eq_or_of_lt (i := 1) (b := 1) (by decide) _).symm
  · have hn : (BitVec.ofInt 64 value).toNat = value.natAbs := by
      rw [toNat_ofInt]
      omega
    rw [hd _ (hn ▸ h),hn]

lemma wordDigits_eq (w : BitVec 64) (h : w.toNat < 2 ^ 63) : wordDigits w = encodeNat w.toNat := by
  induction hn : w.toNat using Nat.strongRecOn generalizing w with
  | ind n ih =>
    subst hn
    have hs : (w.sshiftRight 5).toNat = w.toNat / 32 := by
      rw [sshiftRight_eq_of_msb_false (msb_eq_false_iff_two_mul_lt.mpr (by omega)),toNat_ushiftRight,
        Nat.shiftRight_eq_div_pow]
    have hl : (w &&& 31).toNat = w.toNat % 32 := Nat.and_two_pow_sub_one_eq_mod _ 5
    have hi : (w.sshiftRight 5).toInt = (w.toNat / 32 : Nat) := by
      rw [← hs,toInt_eq_toNat_of_msb (msb_eq_false_iff_two_mul_lt.mpr (by omega))]
    have hc : BitVec.slt 0 (w.sshiftRight 5) ↔ ¬w.toNat < 32 := by
      rw [slt_iff_toInt_lt,hi]
      change (0 : Int) < _ ↔ _
      omega
    rw [wordDigits,encodeNat]
    by_cases hw : w.toNat < 32
    · rw [if_neg fun hp => hc.mp hp hw,if_pos hw,hl,Nat.mod_eq_of_lt hw]
    · have ho : (w &&& 31 ||| 32).toNat = w.toNat % 32 + 32 := by
        rw [toNat_or,hl,Nat.or_comm,Nat.add_comm]
        exact (Nat.two_pow_add_eq_or_of_lt (i := 5) (Nat.mod_lt _ (by decide)) 1).symm
      rw [if_pos (hc.mpr hw),if_neg hw,ho,ih _ (by omega) _ (by omega) hs]

/-- The texts of numbers that fit, one behind the other, read as these numbers, and they are what the loop
over words writes. -/
theorem quantities?_encode (values : List Int) (h : ∀ v ∈ values, v.natAbs < 2 ^ 62) :
    SourceMap.quantities? (values.flatMap encode) = some values ∧
      ∀ v ∈ values, encode v = wordDigits (word v) := by
  refine ⟨SourceMap.quantities?_flatMap values,fun v hv => ?_⟩
  have hl := h v hv
  have hn := toNat_word hl
  have hf : zigzag v < 2 ^ 63 := by
    rw [zigzag]
    split <;> omega
  rw [encode,← hn,wordDigits_eq _ (hn ▸ hf)]

theorem quantities?_encode_largest :
    SourceMap.quantities? ([1000,1 - 2 ^ 62].flatMap encode) = some [1000,1 - 2 ^ 62] ∧
      encode (1 - 2 ^ 62) = wordDigits (word (1 - 2 ^ 62)) :=
  (quantities?_encode [1000,1 - 2 ^ 62] (by decide)).imp_right fun h => h _ (by decide)

end Vlq
end Css
