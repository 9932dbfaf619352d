import Css.Number.Binary32
import Mathlib.Algebra.Ring.Nat

/-!
# Equal numbers

Numbers of single precision that compare equal have the same bit pattern, or are both a zero.
-/
namespace Css.Binary32
open Float.Model Float.Model.UnpackedFloat Nat Option UnpackedFloat Format

lemma toNat_mantissa (b : BitVec 32) : (@unpackMantissa binary32 b).toNat = b.toNat % 2 ^ 23 := by
  simp [unpackMantissa,BitVec.extractLsb]

lemma toNat_exponent (b : BitVec 32) : (@unpackExponent binary32 b).toNat = b.toNat / 2 ^ 23 % 2 ^ 8 := by
  simp [unpackExponent,BitVec.extractLsb,shiftRight_eq_div_pow]

lemma toNat_sign (b : BitVec 32) : (@unpackSign binary32 b).toNat = b.toNat / 2 ^ 31 := by
  have h : b.toNat < 2 ^ 32 := b.isLt
  change (b.toNat >>> 31) % 2 ^ 1 = b.toNat / 2 ^ 31
  rw [shiftRight_eq_div_pow]; omega

variable {b : BitVec 32}

lemma highBit_eq_of_sign {a : BitVec 32}
    (h : Sign.ofBitVec (@unpackSign binary32 a) = Sign.ofBitVec (@unpackSign binary32 b)) :
    a.toNat / 2 ^ 31 = b.toNat / 2 ^ 31 := by
  have inj : ∀ s t : BitVec 1, Sign.ofBitVec s = Sign.ofBitVec t → s = t := by
    intro s t hst
    rcases BitVec.eq_zero_or_eq_one s with rfl | rfl <;>
      rcases BitVec.eq_zero_or_eq_one t with rfl | rfl <;> simp_all [Sign.ofBitVec]
  rw [← toNat_sign,← toNat_sign,inj _ _ h]

lemma fields_of_unpack (b : BitVec 32) : match UnpackedFloat.unpack Format.binary32 b with
    | .infinity s => s = Sign.ofBitVec (@unpackSign Format.binary32 b) ∧
        b.toNat / 2 ^ 23 % 2 ^ 8 = 255 ∧ b.toNat % 2 ^ 23 = 0
    | .notANumber => b.toNat / 2 ^ 23 % 2 ^ 8 = 255
    | .zero _ => b.toNat / 2 ^ 23 % 2 ^ 8 = 0 ∧ b.toNat % 2 ^ 23 = 0
    | .finite s m e _ => s = Sign.ofBitVec (@unpackSign Format.binary32 b) ∧
        ((b.toNat / 2 ^ 23 % 2 ^ 8 = 0 ∧ m = b.toNat % 2 ^ 23 ∧ e = -149) ∨
          (0 < b.toNat / 2 ^ 23 % 2 ^ 8 ∧ m = 2 ^ 23 + b.toNat % 2 ^ 23 ∧
            e = (b.toNat / 2 ^ 23 % 2 ^ 8 : Nat) - 150)) := by
  have he := toNat_exponent b
  have hm := toNat_mantissa b
  unfold UnpackedFloat.unpack
  by_cases hi : @unpackExponent Format.binary32 b = -1#_
  · rw [if_pos hi]
    have h255 : b.toNat / 2 ^ 23 % 2 ^ 8 = 255 := by
      rw [← he,hi]; rfl
    by_cases hz : @unpackMantissa Format.binary32 b = 0#_
    · rw [if_pos hz]
      refine ⟨rfl,h255,?_⟩
      rw [← hm,hz]; rfl
    · rw [if_neg hz]
      exact h255
  · rw [if_neg hi]
    by_cases hzr : @unpackExponent Format.binary32 b = 0#_
    · rw [if_pos hzr]
      have h0 : b.toNat / 2 ^ 23 % 2 ^ 8 = 0 := by
        rw [← he,hzr]; rfl
      by_cases hz : @unpackMantissa Format.binary32 b = 0#_
      · rw [dif_pos hz]
        refine ⟨h0,?_⟩
        rw [← hm,hz]; rfl
      · rw [dif_neg hz]
        refine ⟨rfl,.inl ⟨h0,hm,?_⟩⟩
        rw [hzr]; rfl
    · rw [if_neg hzr]
      refine ⟨rfl,.inr ⟨?_,?_,?_⟩⟩
      · rw [← he]
        exact Nat.pos_of_ne_zero fun h0 => hzr (BitVec.eq_of_toNat_eq h0)
      · have hlt := (@unpackMantissa Format.binary32 b).isLt
        rw [BitVec.toNat_append,← Nat.shiftLeft_add_eq_or_of_lt hlt,hm]; rfl
      · rw [he]; rfl

lemma eq_of_compare_sign {s t : Sign} (h : compare s t = .eq) : s = t := by
  cases s <;> cases t <;> first | rfl | cases h

lemma eq_of_compare_then {m n : Nat} {e f : Int} (h : (compare e f).then (compare m n) = .eq) : m = n ∧ e = f := by
  rw [Ordering.then_eq_eq] at h
  exact ⟨Nat.compare_eq_eq.mp h.2,Int.compare_eq_eq.mp h.1⟩

lemma unpacked_cases {u v : UnpackedFloat} (h : u.compare v = some .eq) :
    (∃ s, u = .infinity s ∧ v = .infinity s) ∨ (∃ s t, u = .zero s ∧ v = .zero t) ∨
      ∃ s m e hu hv, u = .finite s m e hu ∧ v = .finite s m e hv := by
  cases u with
  | notANumber => cases v <;> cases h
  | infinity s =>
    cases v with
    | infinity t =>
      exact .inl ⟨s,rfl,by rw [eq_of_compare_sign (some.inj h)]⟩
    | notANumber => cases h
    | zero | finite => cases s <;> cases h
  | zero s =>
    cases v with
    | infinity t => cases t <;> cases h
    | notANumber => cases h
    | zero t => exact .inr (.inl ⟨s,t,rfl,rfl⟩)
    | finite t n f hn => cases t <;> cases h
  | finite s m e hm =>
    cases v with
    | infinity t => cases s <;> cases t <;> cases h
    | notANumber | zero => cases s <;> cases h
    | finite t n f hn =>
      have hs : s = t ∧ m = n ∧ e = f := by
        cases s <;> cases t
        · exact ⟨rfl,eq_of_compare_then (Ordering.swap_eq_eq.mp (some.inj h))⟩
        · cases h
        · cases h
        · exact ⟨rfl,eq_of_compare_then (some.inj h)⟩
      obtain ⟨rfl,rfl,rfl⟩ := hs
      exact .inr (.inr ⟨s,m,e,hm,hn,rfl,rfl⟩)

variable {x y : Float32}

lemma eq_or_zero_of_beq (h : (x == y)) : x = y ∨ (magnitude x = 0 ∧ magnitude y = 0) := by
  obtain ⟨⟨a,ha⟩⟩ := x
  obtain ⟨⟨b,hb⟩⟩ := y
  have hc : (unpack binary32 a.toBitVec).compare (unpack binary32 b.toBitVec) = some .eq := by
    have h' : ((unpack binary32 a.toBitVec).compare (unpack binary32 b.toBitVec) == some .eq) := h
    exact eq_of_beq h'
  have fa := fields_of_unpack a.toBitVec
  have fb := fields_of_unpack b.toBitVec
  have same : a.toBitVec.toNat = b.toBitVec.toNat → (⟨⟨a,ha⟩⟩ : Float32) = ⟨⟨b,hb⟩⟩ := by
    intro hn
    have hab : a = b := UInt32.toBitVec_inj.mp (BitVec.eq_of_toNat_eq hn)
    subst hab
    rfl
  have la := a.toBitVec.isLt
  have lb := b.toBitVec.isLt
  obtain ⟨s,hu,hv⟩ | ⟨s,t,hu,hv⟩ | ⟨s,m,e,hm,hn,hu,hv⟩ := unpacked_cases hc
  · rw [hu] at fa
    rw [hv] at fb
    have hs := highBit_eq_of_sign (fa.1.symm.trans fb.1)
    left
    apply same
    omega
  · rw [hu] at fa
    rw [hv] at fb
    right
    constructor
    · change a.toBitVec.toNat % 0x80000000 = 0
      omega
    · change b.toBitVec.toNat % 0x80000000 = 0
      omega
  · rw [hu] at fa
    rw [hv] at fb
    have hs := highBit_eq_of_sign (fa.1.symm.trans fb.1)
    left
    apply same
    omega

lemma unpack_of_finite (h : b.toNat % signBit < infinityBits) : (∃ s, unpack binary32 b = .zero s) ∨
      ∃ s m e hm, unpack binary32 b = .finite s m e hm := by
  have hfl : b.toNat / 2 ^ 23 % 2 ^ 8 ≠ 255 := by
    simp only [signBit,infinityBits] at h
    omega
  have hf := fields_of_unpack b
  cases hb : unpack binary32 b with
  | notANumber =>
    rw [hb] at hf
    exact absurd hf hfl
  | infinity s =>
    rw [hb] at hf
    exact absurd hf.2.1 hfl
  | zero s => exact .inl ⟨s,rfl⟩
  | finite s m e hm => exact .inr ⟨s,m,e,hm,rfl⟩

lemma compare_self_of_finite (h : b.toNat % signBit < infinityBits) :
    (unpack binary32 b).compare (unpack binary32 b) = some .eq := by
  obtain ⟨s,hb⟩ | ⟨s,m,e,hm,hb⟩ := unpack_of_finite h
  · rw [hb]; rfl
  · rw [hb]
    have hs : (compare e e).then (compare m m) = .eq := by
      rw [Int.compare_eq_eq.mpr rfl,Nat.compare_eq_eq.mpr rfl]; rfl
    cases s with
    | positive => exact congrArg some hs
    | negative => exact congrArg some (by rw [hs]; rfl)

lemma beq_of_compare (h : (unpack binary32 x.toBits.toBitVec).compare (unpack binary32 y.toBits.toBitVec) = some .eq) :
    (x == y) := by
  change ((unpack binary32 x.toBits.toBitVec).compare (unpack binary32 y.toBits.toBitVec) == some .eq) = true
  rw [h]; rfl

lemma beq_self_of_finite (h : magnitude x < infinityBits) : (x == x) := beq_of_compare (compare_self_of_finite h)

lemma unpack_of_zero (h : b.toNat % signBit = 0) : ∃ s, unpack binary32 b = .zero s := by
  obtain hb | ⟨s,m,e,hm,hb⟩ := unpack_of_finite (by rw [h]; decide)
  · exact hb
  · have hf := fields_of_unpack b
    rw [hb] at hf
    simp only [signBit] at h
    omega

lemma beq_of_zero (hx : magnitude x = 0) (hy : magnitude y = 0) : (x == y) := by
  obtain ⟨s,hs⟩ := unpack_of_zero hx
  obtain ⟨t,ht⟩ := unpack_of_zero hy
  apply beq_of_compare
  rw [hs,ht]; rfl

lemma toNat_packComponents (s : Sign) (e : BitVec 8) (m : BitVec 23) :
    (packComponents binary32 s e m).toNat = s.toBitVec.toNat * 2 ^ 31 + e.toNat * 2 ^ 23 + m.toNat := by
  have hm : m.toNat < 2 ^ 23 := m.isLt
  have he : e.toNat < 2 ^ 8 := e.isLt
  change (s.toBitVec ++ e ++ m).toNat = _
  rw [BitVec.toNat_append,BitVec.toNat_append,← shiftLeft_add_eq_or_of_lt hm,
    ← shiftLeft_add_eq_or_of_lt he,shiftLeft_eq,shiftLeft_eq]
  omega

lemma toNat_sign_of_eq {s : Sign} (h : s = Sign.ofBitVec (@unpackSign binary32 b)) :
    s.toBitVec.toNat = b.toNat / 2 ^ 31 := by
  rw [← toNat_sign,h]
  rcases BitVec.eq_zero_or_eq_one (@unpackSign binary32 b) with hb | hb <;> rw [hb] <;> rfl

lemma pack_unpack_of_finite (hp : 0 < b.toNat % signBit) (h : b.toNat % signBit < infinityBits) :
    UnpackedFloat.pack binary32 (UnpackedFloat.unpack binary32 b) = b := by
  have hlt := b.isLt
  simp only [signBit,infinityBits] at hp h
  have hf := fields_of_unpack b
  apply BitVec.eq_of_toNat_eq
  obtain ⟨s,hb⟩ | ⟨s,m,e,hm,hb⟩ := unpack_of_finite h
  · rw [hb] at hf; omega
  · rw [hb] at hf ⊢
    obtain ⟨hs,⟨hz,rfl,rfl⟩ | ⟨hfl,rfl,rfl⟩⟩ := hf
    · have hsg := toNat_sign_of_eq hs
      have hl : (b.toNat % 2 ^ 23).log2 < 23 := (log2_lt (ne_of_gt hm)).mpr (by omega)
      delta UnpackedFloat.pack
      dsimp only
      rw [if_neg (by decide),if_neg (by change ¬_ = 24; omega),toNat_packComponents,BitVec.toNat_ofNat,hsg]
      change _ + 0 * 2 ^ 23 + _ % 2 ^ 23 = _
      omega
    · have hsg := toNat_sign_of_eq hs
      have hl : (2 ^ 23 + b.toNat % 2 ^ 23).log2 = 23 := (log2_eq_iff (by omega)).mpr ⟨by omega,by omega⟩
      have hbs : (((b.toNat / 2 ^ 23 % 2 ^ 8 : Nat) : Int) - 150 + binary32.exponentBias +
          binary32.mantissaBitsWithoutImplicit).toNat = b.toNat / 2 ^ 23 % 2 ^ 8 := by
        change (((b.toNat / 2 ^ 23 % 2 ^ 8 : Nat) : Int) - 150 + 127 + 23).toNat = _
        omega
      delta UnpackedFloat.pack
      dsimp only
      rw [hbs,hl,if_neg (by omega),if_pos (by decide),toNat_packComponents,BitVec.toNat_ofNat,BitVec.toNat_ofNat,hsg]
      change _ + _ % 2 ^ 8 * 2 ^ 23 + _ % 2 ^ 23 = _
      omega

lemma ofMagnitude_eq (hp : 0 < magnitude x) (h : magnitude x < infinityBits) :
    ofMagnitude (isNegative x) (magnitude x) = x := by
  have hb : (if isNegative x then signBit + magnitude x else magnitude x) = x.toBits.toNat := by
    have hlt : x.toBits.toNat < 2 ^ 32 := x.toBits.toNat_lt
    unfold isNegative magnitude signBit
    by_cases hs : 0x80000000 ≤ x.toBits.toNat
    · rw [if_pos (decide_eq_true hs)]; omega
    · rw [if_neg (by simpa using hs)]; omega
  rw [ofMagnitude,hb,UInt32.ofNat_toNat]
  obtain ⟨⟨a,ha⟩⟩ := x
  have hpc := pack_unpack_of_finite hp h
  have ha' : UInt32.ofBitVec (pack binary32 (unpack binary32 a.toBitVec)) = a := congrArg UInt32.ofBitVec hpc
  exact congrArg Float32.ofModel ((Float32.Model.mk.injEq _ _ _ _).mpr ha')

end Css.Binary32
