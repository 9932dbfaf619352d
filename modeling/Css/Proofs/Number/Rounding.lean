import Css.Number.Shortest
import Mathlib.Algebra.Order.Field.Power
import Mathlib.Algebra.Order.Ring.Rat
import Mathlib.Tactic.Linarith
import Mathlib.Tactic.Positivity
import Mathlib.Tactic.Ring

/-!
# Rounding to single precision

A quotient of naturals that lies in the rounding interval of a pattern is rounded to this pattern.
-/
namespace Css.Binary32
open Nat
variable {n d m : Nat}

/-- A quotient of naturals rounds to `m` if it is at most a half away, and less if `m` is odd. -/
lemma roundDiv_eq (hd : 0 < d) (hm : 0 < m) (hl : (2 * m - 1) * d ≤ 2 * n) (hh : 2 * n ≤ (2 * m + 1) * d)
    (ho : m % 2 = 1 → (2 * m - 1) * d < 2 * n ∧ 2 * n < (2 * m + 1) * d) : roundDiv n d = m := by
  have hls : (2 * m - 1) * d + d = 2 * m * d := by
    rw [← succ_mul]
    congr 1
    omega
  have hn : d * (n / d) + n % d = n := div_add_mod n d
  have hr : n % d < d := mod_lt n hd
  unfold roundDiv
  generalize n / d = q at hn ⊢
  generalize n % d = r at hn hr ⊢
  subst hn
  have hq : q ≤ m := by
    by_contra hlt
    have hml : d * (m + 1) ≤ d * q := mul_le_mul_left d (by omega)
    nlinarith
  have hmq : m ≤ q + 1 := by
    by_contra hlt
    have hml : d * (q + 2) ≤ d * m := mul_le_mul_left d (by omega)
    nlinarith
  obtain rfl | rfl : q = m ∨ m = q + 1 := by omega
  · have hle : 2 * r ≤ d := by nlinarith
    by_cases hlt : 2 * r < d
    · rw [if_pos hlt]
    · have he : q % 2 = 0 := by
        by_contra hne
        have hs := (ho (by omega)).2
        apply hlt
        nlinarith
      rw [if_neg hlt,if_neg (by omega),he]; rfl
  · have hle : d ≤ 2 * r := by nlinarith
    rw [if_neg (by omega)]
    by_cases hlt : d < 2 * r
    · rw [if_pos hlt]
    · have he : (q + 1) % 2 = 0 := by
        by_contra hne
        have hs := (ho (by omega)).1
        apply hlt
        nlinarith
      rw [if_neg hlt]; omega

lemma two_zpow_mul (e : Int) : (2 : ℚ) ^ e * 2 ^ (-e).toNat = 2 ^ e.toNat := by
  rw [← zpow_natCast,← zpow_natCast,← zpow_add₀ two_ne_zero]
  congr 1
  omega

lemma cast_shift (a d : Nat) (e : Int) : ((a * (d <<< e.toNat) : Nat) : ℚ) = a * (d * 2 ^ e) * 2 ^ (-e).toNat := by
  rw [shiftLeft_eq,cast_mul,cast_mul,cast_pow,cast_ofNat,mul_assoc,mul_assoc,two_zpow_mul]

lemma cast_shift_neg (b n : Nat) (e : Int) : ((b * (n <<< (-e).toNat) : Nat) : ℚ) = b * n * 2 ^ (-e).toNat := by
  rw [shiftLeft_eq,cast_mul,cast_mul,cast_pow,cast_ofNat,mul_assoc]

lemma shift_le_iff (a b n d : Nat) (e : Int) :
    a * (d <<< e.toNat) ≤ b * (n <<< (-e).toNat) ↔ (a : ℚ) * (d * 2 ^ e) ≤ b * n := by
  have hp : (0 : ℚ) < 2 ^ (-e).toNat := by positivity
  rw [← cast_le (α := ℚ),cast_shift,cast_shift_neg,mul_le_mul_iff_left₀ hp]

lemma le_shift_iff (a b n d : Nat) (e : Int) :
    b * (n <<< (-e).toNat) ≤ a * (d <<< e.toNat) ↔ (b : ℚ) * n ≤ a * (d * 2 ^ e) := by
  have hp : (0 : ℚ) < 2 ^ (-e).toNat := by positivity
  rw [← cast_le (α := ℚ),cast_shift_neg,cast_shift,mul_le_mul_iff_left₀ hp]

lemma two_zpow_add_one (e : Int) : (2 : ℚ) ^ (e + 1) = 2 * 2 ^ e := by
  rw [zpow_add_one₀ two_ne_zero,mul_comm]

/-- The exponent leaves a mantissa of at most 24 bits, and of no fewer unless it is the least one. -/
structure IsExponent (n d : Nat) (e : Int) : Prop where
  least : -149 ≤ e
  high : (n : ℚ) < 2 ^ 24 * (d * 2 ^ e)
  low : e = -149 ∨ 2 ^ 23 * (d * 2 ^ e) ≤ (n : ℚ)

variable {e : Int}

lemma IsExponent.le {f : Int} (h : IsExponent n d e) (h' : IsExponent n d f) : e ≤ f := by
  by_contra hlt
  have hl : 2 ^ 23 * (d * 2 ^ e) ≤ (n : ℚ) := h.low.resolve_left (by have := h'.least; omega)
  have hp : (2 : ℚ) ^ (f + 1) ≤ 2 ^ e := zpow_le_zpow_right₀ one_le_two (by omega)
  have hm : (d : ℚ) * 2 ^ (f + 1) ≤ d * 2 ^ e := mul_le_mul_of_nonneg_left hp (cast_nonneg d)
  rw [two_zpow_add_one] at hm
  linarith [h'.high]

lemma quotient_bounds (hn : n ≠ 0) (hd : d ≠ 0) : (d : ℚ) * 2 ^ ((n.log2 : Int) - d.log2) < 2 * n ∧
      (n : ℚ) < 2 * (d * 2 ^ ((n.log2 : Int) - d.log2)) := by
  have hnl : (2 : ℚ) ^ n.log2 ≤ n := mod_cast log2_self_le hn
  have hnh : (n : ℚ) < 2 ^ (n.log2 + 1) := mod_cast lt_log2_self
  have hdl : (2 : ℚ) ^ d.log2 ≤ d := mod_cast log2_self_le hd
  have hdh : (d : ℚ) < 2 ^ (d.log2 + 1) := mod_cast lt_log2_self
  have hp : (0 : ℚ) < 2 ^ ((n.log2 : Int) - d.log2) := by positivity
  have hpw : (2 : ℚ) ^ d.log2 * 2 ^ ((n.log2 : Int) - d.log2) = 2 ^ n.log2 := by
    rw [← zpow_natCast,← zpow_add₀ two_ne_zero,← zpow_natCast]
    congr 1
    omega
  rw [pow_succ] at hnh hdh
  constructor
  · have hm := mul_lt_mul_of_pos_right hdh hp
    linarith
  · have hm := mul_le_mul_of_nonneg_right hdl hp.le
    linarith

lemma isExponent_exponentOf (hn : n ≠ 0) (hd : d ≠ 0) : IsExponent n d (exponentOf n d) := by
  obtain ⟨hlw,hh⟩ := quotient_bounds hn hd
  unfold exponentOf
  dsimp only
  rw [sub_add_cancel]
  generalize (n.log2 : Int) - d.log2 = k at hlw hh ⊢
  have hf := shift_le_iff 1 1 n d k
  rw [one_mul,one_mul,cast_one,one_mul,one_mul] at hf
  have hs (j : Nat) (e : Int) (he : e + j = k) : (2 : ℚ) ^ j * (d * 2 ^ e) = d * 2 ^ k := by
    rw [← he,zpow_add₀ two_ne_zero,zpow_natCast]
    ring
  -- before the least exponent is taken into account
  have het : ∃ e : Int, (if n <<< (-k).toNat < d <<< k.toNat then k - 24 else k - 24 + 1) = e ∧
        (n : ℚ) < 2 ^ 24 * (d * 2 ^ e) ∧ 2 ^ 23 * (d * 2 ^ e) ≤ (n : ℚ) := by
    by_cases hlt : n <<< (-k).toNat < d <<< k.toNat
    · have hn : (n : ℚ) < d * 2 ^ k := lt_of_not_ge fun hge => absurd (hf.mpr hge) (by omega)
      have hhl := hs 24 (k - 24) (by omega)
      rw [if_pos hlt]
      exact ⟨_,rfl,by linarith,by linarith⟩
    · have hn : d * 2 ^ k ≤ (n : ℚ) := hf.mp (by omega)
      have hhl := hs 23 (k - 24 + 1) (by omega)
      rw [if_neg hlt]
      exact ⟨_,rfl,by linarith,by linarith⟩
  obtain ⟨e,he,hup,hdw⟩ := het
  rw [he]
  by_cases hl : -149 ≤ e
  · rw [max_eq_left hl]
    exact ⟨hl,hup,.inr hdw⟩
  · have hp : (2 : ℚ) ^ e ≤ 2 ^ (-149 : Int) := zpow_le_zpow_right₀ one_le_two (by omega)
    have hm : (d : ℚ) * 2 ^ e ≤ d * 2 ^ (-149 : Int) := mul_le_mul_of_nonneg_left hp (cast_nonneg d)
    rw [max_eq_right (by omega)]
    exact ⟨le_refl _,by linarith,.inl rfl⟩

lemma IsExponent.exponentOf_eq (hn : n ≠ 0) (hd : d ≠ 0) (h : IsExponent n d e) : exponentOf n d = e :=
  Int.le_antisymm ((isExponent_exponentOf hn hd).le h) (h.le (isExponent_exponentOf hn hd))

lemma roundDiv_shift (hd : 0 < d) (hm : 0 < m) (hl : (2 * m - 1) * ((d : ℚ) * 2 ^ e) ≤ 2 * n)
    (hh : 2 * n ≤ (2 * m + 1) * ((d : ℚ) * 2 ^ e))
    (ho : m % 2 = 1 → (2 * m - 1) * ((d : ℚ) * 2 ^ e) < 2 * n ∧ 2 * n < (2 * m + 1) * ((d : ℚ) * 2 ^ e)) :
    roundDiv (n <<< (-e).toNat) (d <<< e.toNat) = m := by
  have hc : ((2 * m - 1 : Nat) : ℚ) = 2 * m - 1 := by
    rw [cast_sub (by omega)]
    push_cast
    rfl
  have hdw := shift_le_iff (2 * m - 1) 2 n d e
  have hdw' := le_shift_iff (2 * m - 1) 2 n d e
  have hup := le_shift_iff (2 * m + 1) 2 n d e
  have hup' := shift_le_iff (2 * m + 1) 2 n d e
  rw [hc,cast_ofNat] at hdw hdw'
  push_cast at hup hup'
  refine roundDiv_eq ?_ hm (hdw.mpr hl) (hup.mpr hh) fun hm => ?_
  · rw [shiftLeft_eq]
    positivity
  · obtain ⟨hl,hh⟩ := ho hm
    exact ⟨lt_of_not_ge fun hge => absurd (hdw'.mp hge) (not_le.mpr hl),
      lt_of_not_ge fun hge => absurd (hup'.mp hge) (not_le.mpr hh)⟩

lemma nearestBits_eq (hn : n ≠ 0) (hd : d ≠ 0) (he : IsExponent n d e)
    (hm : roundDiv (n <<< (-e).toNat) (d <<< e.toNat) = m) :
    nearestBits n d = min ((e + 149).toNat * leadingBit + m) infinityBits := by
  unfold nearestBits
  rw [if_neg hn,he.exponentOf_eq hn hd]
  dsimp only
  rw [hm]

lemma nearestBits_of_carry (hd : 0 < d) (he : -149 < e)
    (hl : (2 ^ 25 - 1) * ((d : ℚ) * 2 ^ e) ≤ 4 * n) (hh : n < 2 ^ 23 * ((d : ℚ) * 2 ^ e)) :
    nearestBits n d = min ((e + 149).toNat * leadingBit + 2 ^ 23) infinityBits := by
  have hw : (d : ℚ) * 2 ^ e = 2 * (d * 2 ^ (e - 1)) := by
    have hs := two_zpow_add_one (e - 1)
    rw [sub_add_cancel] at hs
    rw [hs,mul_left_comm]
  have hhl : (0 : ℚ) < d * 2 ^ (e - 1) := by positivity
  rw [hw] at hl hh
  have hn : n ≠ 0 := by
    rintro rfl
    push_cast at hl
    linarith
  have het : IsExponent n d (e - 1) := ⟨by omega,by linarith,.inr (by linarith)⟩
  have hr : roundDiv (n <<< (-(e - 1)).toNat) (d <<< (e - 1).toNat) = 2 ^ 24 := by
    apply roundDiv_shift hd (by decide)
    · push_cast
      linarith
    · push_cast
      linarith
    · intro ho
      exact absurd ho (by decide)
  have hc : (e - 1 + 149).toNat * leadingBit + 2 ^ 24 = (e + 149).toNat * leadingBit + 2 ^ 23 := by
    simp only [leadingBit]
    omega
  rw [nearestBits_eq hn hd.ne' het hr,hc]

lemma decode_bounds {bits : Nat} (h : bits < infinityBits) :
    (decode bits).1 < 2 ^ 24 ∧ -149 ≤ (decode bits).2 ∧ (decode bits).2 ≤ 104 ∧
      ((decode bits).2 = -149 ∨ 2 ^ 23 ≤ (decode bits).1) ∧
      bits = ((decode bits).2 + 149).toNat * leadingBit + (decode bits).1 := by
  by_cases hf : bits / leadingBit = 0
  · have hs : bits < leadingBit := (div_eq_zero_iff_lt (by decide)).mp hf
    have hd : decode bits = (bits,-149) := by rw [decode,if_pos hf,mod_eq_of_lt hs]
    rw [hd]
    simp only [leadingBit] at hs
    simp
    omega
  · have hd : decode bits = (bits % leadingBit + leadingBit,((bits / leadingBit : Nat) : Int) - 150) := if_neg hf
    rw [hd]
    simp only [leadingBit,infinityBits] at h hf ⊢
    omega

lemma pos_of_decode {bits : Nat} (hp : 0 < bits) (h : bits < infinityBits) : 0 < (decode bits).1 := by
  obtain ⟨-,-,-,hn,hb⟩ := decode_bounds h
  rcases hn with hl | hn
  · rw [hl] at hb
    simp only [Int.reduceNeg,Int.reduceAdd,Int.toNat_zero,zero_mul] at hb
    omega
  · omega

end Css.Binary32

namespace Css.Shortest
open Binary32

def below (bits : Nat) : Nat := if bits % leadingBit = 0 && leadingBit < bits then 1 else 2

variable {n d : Nat}

lemma Interval.bounds_of_contains {i : Interval} (h : i.contains n d) :
    i.low * d ≤ n * i.denominator ∧ n * i.denominator ≤ i.high * d ∧
      (i.closed = false → i.low * d < n * i.denominator ∧ n * i.denominator < i.high * d) := by
  unfold contains at h
  dsimp only at h
  cases hc : i.closed with
  | true =>
    simp only [hc,if_true,Bool.and_eq_true,decide_eq_true_eq] at h
    exact ⟨h.1,h.2,fun ho => Bool.noConfusion ho⟩
  | false =>
    simp only [hc,Bool.false_eq_true,if_false,Bool.and_eq_true,decide_eq_true_eq] at h
    exact ⟨h.1.le,h.2.le,fun _ => h⟩

variable {bits : Nat}

lemma bounds_of_contains (h : (interval bits).contains n d) :
    ((4 * (decode bits).1 - below bits : Nat) : ℚ) * (d * 2 ^ ((decode bits).2 - 2)) ≤ n ∧
      (n : ℚ) ≤ (4 * (decode bits).1 + 2 : Nat) * (d * 2 ^ ((decode bits).2 - 2)) ∧
      ((decode bits).1 % 2 = 1 → ((4 * (decode bits).1 - below bits : Nat) : ℚ) * (d * 2 ^ ((decode bits).2 - 2)) < n ∧
          (n : ℚ) < (4 * (decode bits).1 + 2 : Nat) * (d * 2 ^ ((decode bits).2 - 2))) := by
  have hn : 2 - (decode bits).2 = -((decode bits).2 - 2) := by omega
  have hl (a : Nat) : a <<< ((decode bits).2 - 2).toNat * d ≤
      n * 1 <<< (2 - (decode bits).2).toNat ↔ (a : ℚ) * (d * 2 ^ ((decode bits).2 - 2)) ≤ n := by
    have hs := shift_le_iff a 1 n d ((decode bits).2 - 2)
    rw [Nat.cast_one,one_mul,one_mul] at hs
    rw [← hs,hn]
    simp only [Nat.shiftLeft_eq,one_mul,mul_assoc,mul_comm d]
  have hh (a : Nat) : n * 1 <<< (2 - (decode bits).2).toNat ≤
      a <<< ((decode bits).2 - 2).toNat * d ↔ (n : ℚ) ≤ a * (d * 2 ^ ((decode bits).2 - 2)) := by
    have hs := le_shift_iff a 1 n d ((decode bits).2 - 2)
    rw [Nat.cast_one,one_mul,one_mul] at hs
    rw [← hs,hn]
    simp only [Nat.shiftLeft_eq,one_mul,mul_assoc,mul_comm d]
  obtain ⟨hd,hup,ho⟩ := Interval.bounds_of_contains h
  refine ⟨(hl _).mp hd,(hh _).mp hup,fun hod => ?_⟩
  have hc : (interval bits).closed = false := by
    change decide ((decode bits).1 % 2 = 0) = false
    rw [hod]; rfl
  obtain ⟨hd,hup⟩ := ho hc
  exact ⟨lt_of_not_ge fun hge => absurd ((hh _).mpr hge) (Nat.not_le.mpr hd),
    lt_of_not_ge fun hge => absurd ((hl _).mpr hge) (Nat.not_le.mpr hup)⟩

lemma below_eq (h : bits < infinityBits) :
    below bits = if (decode bits).1 = 2 ^ 23 ∧ -149 < (decode bits).2 then 1 else 2 := by
  obtain ⟨hm,he,-,hn,hb⟩ := decode_bounds h
  generalize decode bits = ps at hm he hn hb ⊢
  have hp : bits % leadingBit = 0 ∧ leadingBit < bits ↔ ps.1 = 2 ^ 23 ∧ -149 < ps.2 := by
    simp only [leadingBit,infinityBits] at h hb ⊢
    omega
  unfold below
  simp only [Bool.and_eq_true,decide_eq_true_eq,hp]

lemma nearestBits_of_contains (hp : 0 < bits) (hf : bits < infinityBits) (hd : 0 < d)
    (h : (interval bits).contains n d) : nearestBits n d = bits := by
  obtain ⟨hm,he,-,hnr,hbt⟩ := decode_bounds hf
  obtain ⟨hl,hh,ho⟩ := bounds_of_contains h
  have hbl := below_eq hf
  have hmp := pos_of_decode hp hf
  generalize (decode bits).1 = m at *
  generalize (decode bits).2 = e at *
  -- both ends are whole numbers of quarters of the last place
  have hw : (d : ℚ) * 2 ^ e = 4 * (d * 2 ^ (e - 2)) := by
    rw [show e = e - 2 + 1 + 1 by omega,two_zpow_add_one,two_zpow_add_one]
    ring_nf
  have hq : (0 : ℚ) < d * 2 ^ (e - 2) := by positivity
  generalize (d : ℚ) * 2 ^ (e - 2) = u at *
  have hdw : (4 * m - 2 : ℚ) * u ≤ ((4 * m - below bits : Nat) : ℚ) * u := by
    have ht : below bits ≤ 2 := by
      rw [hbl]
      split <;> omega
    have hc : (below bits : ℚ) ≤ 2 := mod_cast ht
    rw [Nat.cast_sub (by omega)]
    push_cast
    exact mul_le_mul_of_nonneg_right (by linarith) hq.le
  push_cast at hh ho
  by_cases hb : e = -149 ∨ 2 ^ 23 * ((d : ℚ) * 2 ^ e) ≤ n
  · have hml : (m + 1 : ℚ) * u ≤ 2 ^ 24 * u := mul_le_mul_of_nonneg_right (mod_cast hm) hq.le
    have hmg : (1 : ℚ) * u ≤ m * u := mul_le_mul_of_nonneg_right (mod_cast hmp) hq.le
    have hn : n ≠ 0 := by
      rintro rfl
      push_cast at hl
      linarith
    have het : IsExponent n d e := ⟨he,by linarith,hb⟩
    have hr : roundDiv (n <<< (-e).toNat) (d <<< e.toNat) = m := by
      apply roundDiv_shift hd hmp
      · rw [hw]
        linarith
      · rw [hw]
        linarith
      · intro hm
        obtain ⟨hl,hh⟩ := ho hm
        rw [hw]
        constructor <;> linarith
    rw [nearestBits_eq hn hd.ne' het hr,← hbt,min_eq_left hf.le]
  · rw [not_or,not_le] at hb
    obtain ⟨hne,hu⟩ := hb
    have hmq : m = 2 ^ 23 := by
      have hlt : (4 * m - 2 : ℚ) < 2 ^ 25 := lt_of_mul_lt_mul_right (by linarith) hq.le
      have hnt : 4 * m < 2 ^ 25 + 2 := mod_cast (by linarith : (4 * m : ℚ) < 2 ^ 25 + 2)
      have hmw := hnr.resolve_left hne
      omega
    rw [hbl,if_pos ⟨hmq,by omega⟩,hmq] at hl
    rw [nearestBits_of_carry hd (by omega) (by push_cast at hl; linarith) hu,← hmq,← hbt,min_eq_left hf.le]

end Css.Shortest
