import Css.Number.Text
import Css.Proofs.Number.Equality
import Css.Proofs.Number.Rounding

/-!
# Numerals

A number is written as a numeral without an exponent: digits that a point may divide, with a sign before
them or not.
-/
namespace Css.Shortest
open Binary32 Bool Option
variable {i : Interval}

lemma Interval.contains_of_lt {n d : Nat} (hl : i.low * d < n * i.denominator)
    (hh : n * i.denominator < i.high * d) : i.contains n d := by
  unfold contains
  split
  · exact (and_eq_true _ _).mpr ⟨decide_eq_true hl.le,decide_eq_true hh.le⟩
  · exact (and_eq_true _ _).mpr ⟨decide_eq_true hl,decide_eq_true hh⟩

lemma Interval.contains_eq {n d n' d' : Nat} (hd : 0 < d) (hd' : 0 < d') (h : n * d' = n' * d) :
    i.contains n d = i.contains n' d' := by
  have hl : i.low * d * d' = i.low * d' * d := Nat.mul_right_comm _ _ _
  have hh : i.high * d * d' = i.high * d' * d := Nat.mul_right_comm _ _ _
  have hp : n * i.denominator * d' = n' * i.denominator * d := by
    rw [Nat.mul_right_comm,h,Nat.mul_right_comm]
  have hle (a b a' b' : Nat) (ha : a * d' = a' * d) (hb : b * d' = b' * d) : a ≤ b ↔ a' ≤ b' := by
    rw [← Nat.mul_le_mul_right_iff hd',ha,hb,Nat.mul_le_mul_right_iff hd]
  unfold contains
  simp only [← Nat.not_le,hle _ _ _ _ hl hp,hle _ _ _ _ hp hh,hle _ _ _ _ hp hl,hle _ _ _ _ hh hp]

/-- The ends of a rounding interval, which are never far from one on the scale of decimals. -/
lemma interval_bounds {bits : Nat} (hp : 0 < bits) (h : bits < infinityBits) :
    0 < (interval bits).low ∧ (interval bits).low < (interval bits).value ∧
      (interval bits).value < (interval bits).high ∧ (interval bits).high ≤ 2 ^ 128 ∧
      0 < (interval bits).denominator ∧ (interval bits).denominator ≤ 2 ^ 151 := by
  obtain ⟨hm,he,he',hn,hb⟩ := decode_bounds h
  have hmp := pos_of_decode hp h
  have hbl : 0 < below bits ∧ below bits ≤ 2 := by
    unfold below
    split <;> omega
  have hl : (interval bits).low =
      (4 * (decode bits).1 - below bits) * 2 ^ ((decode bits).2 - 2).toNat := Nat.shiftLeft_eq _ _
  have hv : (interval bits).value = 4 * (decode bits).1 * 2 ^ ((decode bits).2 - 2).toNat := Nat.shiftLeft_eq _ _
  have hh : (interval bits).high = (4 * (decode bits).1 + 2) * 2 ^ ((decode bits).2 - 2).toNat := Nat.shiftLeft_eq _ _
  have hd : (interval bits).denominator = 2 ^ (2 - (decode bits).2).toNat := Nat.one_shiftLeft _
  have hu : 0 < 2 ^ ((decode bits).2 - 2).toNat := Nat.two_pow_pos _
  rw [hl,hv,hh,hd]
  refine ⟨Nat.mul_pos (by omega) hu,Nat.mul_lt_mul_of_pos_right (by omega) hu,
    Nat.mul_lt_mul_of_pos_right (by omega) hu,?_,Nat.two_pow_pos _,?_⟩
  · have hpw : 2 ^ ((decode bits).2 - 2).toNat ≤ 2 ^ 102 := Nat.pow_le_pow_right (by decide) (by omega)
    calc (4 * (decode bits).1 + 2) * 2 ^ ((decode bits).2 - 2).toNat ≤ 2 ^ 26 * 2 ^ 102 := Nat.mul_le_mul (by omega) hpw
      _ = 2 ^ 128 := by rw [← Nat.pow_add]
  · exact Nat.pow_le_pow_right (by decide) (by omega)

lemma contains_of_gridPoint? {p : Int} {k : Nat} (h : gridPoint? i p = some k) :
    k ≠ 0 ∧ i.contains (k * Nat.pow 10 p.toNat) (Nat.pow 10 (-p).toNat) := by
  unfold gridPoint? at h
  dsimp only at h
  generalize i.value * Nat.pow 10 (-p).toNat / (Nat.pow 10 p.toNat * i.denominator) = down at h
  split at h
  · rename_i hd hup
    rw [and_eq_true,bne_iff_ne] at hd
    split at h
    · cases h
      exact ⟨hd.2,hd.1⟩
    · cases h
      exact ⟨Nat.succ_ne_zero down,hup⟩
  · rename_i hd hup
    rw [and_eq_true,bne_iff_ne] at hd; cases h
    exact ⟨hd.2,hd.1⟩
  · rename_i hd hup
    cases h
    exact ⟨Nat.succ_ne_zero down,hup⟩
  · cases h

/-- A grid has a point in an interval that reaches down by more than the width of the grid. -/
lemma isSome_gridPoint? {places : Nat} (hl : i.low < i.value) (hh : i.value < i.high)
    (hd : 0 < i.denominator) (hfn : i.denominator ≤ Nat.pow 10 places) :
    (gridPoint? i (-places)).isSome := by
  have hu : Nat.pow 10 (-places : Int).toNat = 1 := by simp
  have hp : Nat.pow 10 (-(-places) : Int).toNat = Nat.pow 10 places := by simp
  have hpw : 0 < Nat.pow 10 places := Nat.pow_pos (by decide)
  unfold gridPoint?
  simp only [hu,hp,Nat.one_mul,Nat.mul_one]
  generalize Nat.pow 10 places = parts at *
  have hdv := Nat.div_add_mod (i.value * parts) i.denominator
  have hm := Nat.mod_lt (i.value * parts) hd
  have hs : i.low * parts + parts ≤ i.value * parts := by
    rw [← Nat.succ_mul]
    exact Nat.mul_le_mul_right _ hl
  have hup : i.value * parts < i.high * parts := Nat.mul_lt_mul_of_pos_right hh hpw
  have hpn : i.contains (i.value * parts / i.denominator) parts := by
    apply Interval.contains_of_lt
    · rw [Nat.mul_comm _ i.denominator]; omega
    · rw [Nat.mul_comm _ i.denominator]; omega
  have hne : (i.value * parts / i.denominator != 0) := bne_iff_ne.mpr (Nat.ne_of_gt (Nat.div_pos (by omega) hd))
  rw [hpn,hne,Bool.and_self]
  split <;> first | rfl | (rename_i hf _; cases hf)

lemma contains_decimal {bits : Nat} (hps : 0 < bits) (h : bits < infinityBits) : (decimal bits).coefficient ≠ 0 ∧
      (interval bits).contains ((decimal bits).coefficient * 10 ^ (decimal bits).exponent.toNat)
        (10 ^ (-(decimal bits).exponent).toNat) := by
  obtain ⟨-,hl,hh,-,hdn,hdn'⟩ := interval_bounds hps h
  have hs : (grids.findSome? fun p => (gridPoint? (interval bits) p).map (⟨·,p⟩ : Nat → Decimal)).isSome := by
    rw [List.findSome?_isSome_iff]
    refine ⟨-(55 : Nat),by decide,?_⟩
    rw [isSome_map]
    exact isSome_gridPoint? hl hh hdn (hdn'.trans (by decide))
  obtain ⟨d,hd⟩ := isSome_iff_exists.mp hs
  obtain ⟨p,-,hp⟩ := List.exists_of_findSome?_eq_some hd
  obtain ⟨k,hk,rfl⟩ := map_eq_some_iff.mp hp
  have hdc : decimal bits = ⟨k,p⟩ := by
    unfold decimal
    dsimp only
    rw [hd]; rfl
  rw [hdc]
  exact contains_of_gridPoint? hk

end Css.Shortest

namespace Css.Number
open Binary32 Shortest

lemma lt_pow_length {n : Nat} : n < 10 ^ (Nat.toDigits 10 n).length :=
  (Nat.length_toDigits_le_iff (by decide) Nat.length_toDigits_pos).mp (Nat.le_refl _)

lemma scaledBits_of_contains {bits c places : Nat} (hp : 0 < bits) (h : bits < infinityBits)
    (hc : c ≠ 0) (hcn : (interval bits).contains c (10 ^ places)) :
    scaledBits c (-places) = bits := by
  obtain ⟨hl,-,-,hh,hd,hd'⟩ := interval_bounds hp h
  obtain ⟨hdw,hup,-⟩ := Interval.bounds_of_contains hcn
  have hpw : 0 < 10 ^ places := Nat.pow_pos (by decide)
  -- neither too many digits before the point nor too many zeros behind it
  have hlr : ¬40 < ((Nat.toDigits 10 c).length : Int) + -places := by
    intro hln
    have hc : 10 ^ (places + 40) ≤ c := by
      by_contra hlt
      have hle := (Nat.length_toDigits_le_iff (b := 10) (by decide) (by omega)).mpr (Nat.lt_of_not_le hlt)
      omega
    have hb : c ≤ 2 ^ 128 * 10 ^ places := (Nat.le_mul_of_pos_right c hd).trans (hup.trans (Nat.mul_le_mul_right _ hh))
    have ht : 2 ^ 128 * 10 ^ places < 10 ^ (places + 40) := by
      rw [Nat.pow_add,Nat.mul_comm]
      exact Nat.mul_lt_mul_of_pos_left (by decide) hpw
    omega
  have hs : ¬((Nat.toDigits 10 c).length : Int) + -places < -46 := by
    intro hsh
    have hb : 10 ^ places ≤ c * 2 ^ 151 := (Nat.le_mul_of_pos_left _ hl).trans (hdw.trans (Nat.mul_le_mul_left c hd'))
    have ht : c * 2 ^ 151 < 10 ^ places := by
      calc c * 2 ^ 151 < 10 ^ (Nat.toDigits 10 c).length * 10 ^ 46 :=
            Nat.mul_lt_mul_of_lt_of_le lt_pow_length (by decide) (by decide)
        _ = 10 ^ ((Nat.toDigits 10 c).length + 46) := (Nat.pow_add _ _ _).symm
        _ ≤ 10 ^ places := Nat.pow_le_pow_right (by decide) (by omega)
    omega
  have hn : c * Nat.pow 10 (-places : Int).toNat = c := by simp
  have hdn : Nat.pow 10 (-(-places) : Int).toNat = 10 ^ places := by simp
  unfold scaledBits
  dsimp only
  rw [if_neg hc,if_neg hlr,if_neg hs,hn,hdn]
  exact nearestBits_of_contains hp h hpw hcn

end Css.Number

namespace Css.Number
open List Binary32 Shortest Text Nat Char
namespace Numeral

def point (n : Numeral) : List Char := if n.fraction = [] then [] else '.' :: n.fraction

def text (n : Numeral) : List Char := (if n.negative then ['-'] else []) ++ (n.whole ++ n.point)

structure IsPlain (n : Numeral) : Prop where
  whole : ∀ c ∈ n.whole, c.isDigit = true
  fraction : ∀ c ∈ n.fraction, c.isDigit = true
  nonempty : n.whole ≠ [] ∨ n.fraction ≠ []
  exponent : n.exponent = 0

end Numeral

lemma takeWhile_isDigit_append {ds rest : List Char} (h : ∀ c ∈ ds, c.isDigit) (hr : rest.head?.any isDigit = false) :
    (ds ++ rest).takeWhile isDigit = ds ∧ (ds ++ rest).dropWhile isDigit = rest := by
  rw [takeWhile_append_of_pos h,dropWhile_append_of_pos h]
  cases rest with
  | nil => exact ⟨append_nil _,rfl⟩
  | cons c rest =>
    have hc : c.isDigit = false := hr
    rw [takeWhile_cons,dropWhile_cons,hc]
    exact ⟨append_nil _,rfl⟩

namespace Numeral
variable {n : Numeral}

lemma point_nil (h : n.fraction = []) : n.point = [] := if_pos h

lemma point_cons (h : n.fraction ≠ []) : n.point = '.' :: n.fraction := if_neg h

lemma head?_point (n : Numeral) : n.point.head?.any isDigit = false := by
  unfold point
  split <;> rfl

lemma IsPlain.head_digits (h : n.IsPlain) : ∃ c rest, n.whole ++ n.point = c :: rest ∧ (c.isDigit ∨ c = '.') := by
  cases hw : n.whole with
  | cons c rest => exact ⟨c,rest ++ n.point,rfl,.inl (h.whole c (by simp [hw]))⟩
  | nil =>
    have hf : n.fraction ≠ [] := h.nonempty.resolve_left fun hne => hne hw
    exact ⟨'.',n.fraction,point_cons hf,.inr rfl⟩

lemma IsPlain.splitSign_text (h : n.IsPlain) : splitSign n.text = (n.negative,n.whole ++ n.point) := by
  unfold text
  cases n.negative with
  | true => rfl
  | false =>
    obtain ⟨c,rest,hd,hc⟩ := h.head_digits
    rw [if_neg Bool.false_ne_true,nil_append,hd]
    unfold splitSign
    split
    · rename_i heq
      rw [(List.cons.inj heq).1] at hc
      rcases hc with hc | hc <;> cases hc
    · rename_i heq
      rw [(List.cons.inj heq).1] at hc
      rcases hc with hc | hc <;> cases hc
    · rfl

lemma IsPlain.readNumeral?_text (h : n.IsPlain) : readNumeral? n.text = some n := by
  obtain ⟨ht,hdr⟩ := takeWhile_isDigit_append h.whole n.head?_point
  have he : (n.whole.isEmpty && n.fraction.isEmpty) = false := by
    rw [Bool.and_eq_false_iff]
    exact h.nonempty.imp isEmpty_eq_false_iff.mpr isEmpty_eq_false_iff.mpr
  have het : some (⟨n.negative,n.whole,n.fraction,0⟩ : Numeral) = some n := by rw [← h.exponent]
  unfold readNumeral?
  rw [h.splitSign_text]
  dsimp only
  rw [ht,hdr]
  by_cases hf : n.fraction = []
  · rw [point_nil hf]
    rw [hf] at he het
    rw [he]
    exact het
  · have hd : (n.fraction ++ []).takeWhile isDigit = n.fraction ∧
        (n.fraction ++ []).dropWhile isDigit = [] := takeWhile_isDigit_append h.fraction rfl
    rw [append_nil] at hd
    rw [point_cons hf]
    change (if (n.whole.isEmpty && (n.fraction.takeWhile isDigit).isEmpty) = true then none
      else (readExponent? (n.fraction.dropWhile isDigit)).map fun ex =>
        (⟨n.negative,n.whole,n.fraction.takeWhile isDigit,ex⟩ : Numeral)) = some n
    rw [hd.1,hd.2,he]
    exact het

end Numeral

lemma decimalNumber_eq (ds : List Char) : decimalNumber ds = ofDigitChars 10 ds 0 := rfl

lemma decimalNumber_append_zeros (digits : List Char) (k : Nat) :
    decimalNumber (digits ++ List.replicate k '0') = 10 ^ k * decimalNumber digits := by
  rw [decimalNumber_eq,ofDigitChars_append,ofDigitChars_replicate_zero,decimalNumber_eq]

lemma decimalNumber_zeros_append (k : Nat) (digits : List Char) :
    decimalNumber (List.replicate k '0' ++ digits) = decimalNumber digits := by
  rw [decimalNumber_eq,ofDigitChars_append,ofDigitChars_replicate_zero,mul_zero,decimalNumber_eq]

lemma decimalNumber_toDigits (n : Nat) : decimalNumber (toDigits 10 n) = n := ofDigitChars_ten_toDigits

lemma exists_zeros (ds : List Char) : ∃ k, ds = (ds.reverse.dropWhile (· == '0')).reverse ++ List.replicate k '0' := by
  have hz : ∀ c ∈ ds.reverse.takeWhile (· == '0'), c = '0' := fun c hc => eq_of_beq (all_eq_true.mp all_takeWhile c hc)
  have hs := takeWhile_append_dropWhile (p := (· == '0')) (l := ds.reverse)
  rw [eq_replicate_of_mem hz] at hs
  refine ⟨(ds.reverse.takeWhile (· == '0')).length,?_⟩
  rw [← reverse_replicate,← reverse_append,hs,reverse_reverse]

lemma isDigit_of_mem_zeros {k : Nat} {c : Char} (h : c ∈ List.replicate k '0') : c.isDigit := by
  rw [eq_of_mem_replicate h]; rfl

lemma isDigit_of_mem_toDigits {n : Nat} {c : Char} (h : c ∈ Nat.toDigits 10 n) : c.isDigit :=
  Nat.isDigit_of_mem_toDigits (by decide) (by decide) h

/-- The numeral of a decimal that may not be whole. Zeros before the digits make room for the point. -/
lemma exists_numeral_places {d : Decimal} (h : d.exponent < 0) :
    ∃ n : Numeral, n.IsPlain ∧ n.negative = false ∧ (positional d).toList = n.text ∧
      decimalNumber (n.whole ++ n.fraction) * 10 ^ (-d.exponent).toNat = d.coefficient * 10 ^ n.fraction.length := by
  unfold positional
  dsimp only
  rw [if_neg (by omega)]
  generalize (-d.exponent).toNat = places
  generalize hp : List.replicate (places + 1 - (Nat.toDigits 10 d.coefficient).length) '0' ++
    Nat.toDigits 10 d.coefficient = padded
  have hd : ∀ c ∈ padded, c.isDigit := by
    intro c hc
    rw [← hp] at hc
    exact (mem_append.mp hc).elim isDigit_of_mem_zeros isDigit_of_mem_toDigits
  have hl : places < padded.length := by
    rw [← hp,length_append,length_replicate]; omega
  have hn : decimalNumber padded = d.coefficient := by
    rw [← hp,decimalNumber_zeros_append,decimalNumber_toDigits]
  have hs := take_append_drop (padded.length - places) padded
  have hw : padded.take (padded.length - places) ≠ [] := by
    intro hnl
    have ht := congrArg List.length hnl
    rw [length_take,length_nil] at ht; omega
  have hpl : (padded.drop (padded.length - places)).length = places := by
    rw [length_drop]; omega
  generalize padded.take (padded.length - places) = whole at *
  obtain ⟨k,hk⟩ := exists_zeros (padded.drop (padded.length - places))
  generalize padded.drop (padded.length - places) = frac at *
  generalize (frac.reverse.dropWhile (· == '0')) = kept at *
  subst hk
  refine ⟨⟨false,whole,kept.reverse,0⟩,⟨?_,?_,.inl hw,rfl⟩,rfl,?_,?_⟩
  · intro c hc
    exact hd c (by simp [← hs,hc])
  · intro c hc
    have hc : c ∈ kept := mem_reverse.mp hc
    exact hd c (by simp [← hs,hc])
  · unfold Numeral.text
    by_cases hkp : kept = []
    · rw [Numeral.point_nil (by simp [hkp]),if_pos (by simp [hkp]),String.toList_ofList]
      exact (append_nil _).symm
    · rw [Numeral.point_cons (by simpa using hkp),if_neg (by simpa using hkp),String.toList_ofList]
      rfl
  · rw [length_append,length_replicate] at hpl
    rw [← hs,← append_assoc,decimalNumber_append_zeros] at hn
    rw [← hn,← hpl,Nat.pow_add,Nat.mul_comm (10 ^ k),Nat.mul_assoc,Nat.mul_comm (10 ^ k)]

lemma exists_numeral_positional (d : Decimal) :
    ∃ n : Numeral, n.IsPlain ∧ n.negative = false ∧ (positional d).toList = n.text ∧
      decimalNumber (n.whole ++ n.fraction) * 10 ^ (-d.exponent).toNat =
        d.coefficient * 10 ^ d.exponent.toNat * 10 ^ n.fraction.length := by
  by_cases hs : 0 ≤ d.exponent
  · have hz : (-d.exponent).toNat = 0 := by omega
    refine ⟨⟨false,toDigits 10 d.coefficient ++ List.replicate d.exponent.toNat '0',[],0⟩,
      ⟨?_,forall_mem_nil _,.inl (by simp),rfl⟩,rfl,?_,?_⟩
    · intro c hc
      exact (mem_append.mp hc).elim isDigit_of_mem_toDigits isDigit_of_mem_zeros
    · rw [positional]
      rw [if_pos hs,String.toList_ofList]
      exact (append_nil _).symm
    · rw [hz,append_nil,decimalNumber_append_zeros,decimalNumber_toDigits,mul_comm (10 ^ _)]
      rfl
  · obtain ⟨n,hp,hn,ht,hv⟩ := exists_numeral_places (d := d) (by omega)
    have hz : d.exponent.toNat = 0 := by omega
    refine ⟨n,hp,hn,ht,?_⟩
    rw [hv,hz,pow_zero,mul_one]

lemma exists_numeral_format {x : Float32} (h : magnitude x < infinityBits) :
    ∃ n : Numeral, n.IsPlain ∧ (format false x).toList = n.text ∧ (x == n.value) := by
  have hn : ¬infinityBits < magnitude x := by omega
  have hf : ¬magnitude x = infinityBits := by omega
  by_cases hz : magnitude x = 0
  · refine ⟨⟨false,['0'],[],0⟩,⟨?_,forall_mem_nil _,.inl (cons_ne_nil _ _),rfl⟩,?_,beq_of_zero hz rfl⟩
    · intro c hc
      rw [mem_singleton.mp hc]; rfl
    · unfold format
      dsimp only
      rw [if_neg Bool.false_ne_true,if_pos hz]; rfl
  · have hps : 0 < magnitude x := Nat.pos_of_ne_zero hz
    obtain ⟨hne,hcn⟩ := contains_decimal hps h
    obtain ⟨n,hp,hu,ht,hv⟩ := exists_numeral_positional (decimal (magnitude x))
    refine ⟨{ n with negative := isNegative x },⟨hp.whole,hp.fraction,hp.nonempty,hp.exponent⟩,?_,?_⟩
    · have hfr : format false x = (if isNegative x then "-" else "") ++ positional (decimal (magnitude x)) := by
        unfold format text
        dsimp only
        rw [if_neg Bool.false_ne_true,if_neg hz,if_neg hf,if_neg hn,if_neg hf,if_neg hz]
      rw [hfr,String.toList_append,ht,Numeral.text,Numeral.text,hu]
      cases isNegative x <;> rfl
    · have hpw (k : Nat) : 0 < 10 ^ k := Nat.pow_pos (by decide)
      have hnn : decimalNumber (n.whole ++ n.fraction) ≠ 0 := by
        intro heq
        rw [heq,Nat.zero_mul] at hv
        exact absurd hv.symm (Nat.mul_ne_zero (Nat.mul_ne_zero hne (hpw _).ne') (hpw _).ne')
      rw [Interval.contains_eq (hpw _) (hpw _) hv.symm] at hcn
      have hs := scaledBits_of_contains hps h hnn hcn
      rw [Numeral.value,hp.exponent,Int.zero_sub,hs,ofMagnitude_eq hps h]
      exact beq_self_of_finite h

end Css.Number
