import Mathlib.Algebra.Order.Ring.Nat
import Mathlib.Tactic.Linarith
import Mathlib.Tactic.NormNum
import Mathlib.Tactic.Ring
import SafeMarkdown.Number.Decimal

/-!
# Rounding to doubles

The double nearest to a quotient depends on the quotient alone, and a double is the nearest one to
itself. The exponents for which no power is computed are those at which rounding gives the same
answer, so reading a decimal is rounding throughout, and the shortest decimal of a double reads back
as that double.
-/

namespace SafeMarkdown

namespace Double

variable {p q : Nat}

theorem denominator_eq : ∃ k, k = 1074 ∧ denominator = 2 ^ k := by
  unfold denominator
  generalize 1074 = k
  exact ⟨k, rfl, Nat.pow_eq⟩

theorem denominator_pos : 0 < denominator := by
  obtain ⟨k, -, hk⟩ := denominator_eq
  rw [hk]
  exact Nat.two_pow_pos k

section Ratio

theorem roundToEven_mul_right (p q : Nat) {c : Nat} (hc : 0 < c) :
    roundToEven (p * c) (q * c) = roundToEven p q := by
  have hdiv : p * c / (q * c) = p / q := Nat.mul_div_mul_right p q hc
  have hmod : p * c % (q * c) = p % q * c := Nat.mul_mod_mul_right c p q
  have htwice : 2 * (p % q * c) = 2 * (p % q) * c := by ring
  unfold roundToEven
  simp only [hdiv, hmod, htwice, Nat.mul_lt_mul_right hc]

theorem roundToEven_of_mul (n : Nat) (hq : 0 < q) : roundToEven (n * q) q = n := by
  unfold roundToEven
  simp [Nat.mul_div_cancel n hq, hq]

theorem le_roundToEven (p q : Nat) : p / q ≤ roundToEven p q := by
  unfold roundToEven
  dsimp only
  split_ifs <;> omega

theorem rankOf_mul_right (p q : Nat) {c : Nat} (hc : 0 < c) :
    rankOf (p * c) (q * c) = rankOf p q := by
  have hbinade : binadeOf (p * c) (q * c) = binadeOf p q := by
    unfold binadeOf
    rw [Nat.mul_right_comm, Nat.mul_div_mul_right _ _ hc]
  unfold rankOf
  dsimp only
  rw [hbinade, Nat.mul_right_comm p c, Nat.mul_right_comm q c, roundToEven_mul_right _ _ hc]

theorem ofRatio_mul_right (negative : Bool) (p q : Nat) {c : Nat} (hc : 0 < c) :
    ofRatio negative (p * c) (q * c) = ofRatio negative p q := by
  unfold ofRatio
  simp only [rankOf_mul_right p q hc]

end Ratio

section Ranks

theorem log2_of_bounds {n k : Nat} (hlow : 2 ^ k ≤ n) (hhigh : n < 2 ^ (k + 1)) : n.log2 = k := by
  have hne : n ≠ 0 := by
    have := Nat.two_pow_pos k
    omega
  have h₁ := (Nat.le_log2 hne).mpr hlow
  have h₂ := (Nat.log2_lt hne).mpr hhigh
  omega

/-- The binade of a magnitude is found from its numerator. -/
theorem log2_numerator (rank : Nat) : (numerator rank).log2 - 52 = binade rank := by
  unfold numerator binade significand
  rw [Nat.pow_eq, Nat.pow_eq]
  by_cases hsmall : rank < 2 ^ 52
  · have hzero : rank / 2 ^ 52 - 1 = 0 := by omega
    rw [if_pos hsmall, hzero, pow_zero, Nat.mul_one]
    by_cases hrank : rank = 0
    · rw [hrank, Nat.log2_zero]
    · have hlog := (Nat.log2_lt hrank).mpr hsmall
      omega
  · rw [if_neg hsmall]
    have hmod : rank % 2 ^ 52 < 2 ^ 52 := Nat.mod_lt _ (Nat.two_pow_pos 52)
    generalize rank / 2 ^ 52 - 1 = k
    have hlog : ((2 ^ 52 + rank % 2 ^ 52) * 2 ^ k).log2 = 52 + k := by
      apply log2_of_bounds
      · rw [pow_add]
        exact Nat.mul_le_mul_right _ (Nat.le_add_right _ _)
      · have hpow : 2 ^ (52 + k + 1) = (2 ^ 52 + 2 ^ 52) * 2 ^ k := by ring
        rw [hpow]
        exact Nat.mul_lt_mul_of_pos_right (by omega) (Nat.two_pow_pos k)
    omega

/-- A double is the nearest one to its own magnitude. -/
theorem rankOf_numerator (rank : Nat) : rankOf (numerator rank) denominator = rank := by
  have hbinade : binadeOf (numerator rank) denominator = binade rank := by
    rw [binadeOf, Nat.mul_div_cancel _ denominator_pos, log2_numerator]
  have hround : roundToEven (numerator rank * denominator) (denominator * 2 ^ binade rank) =
      significand rank := by
    have hpos : 0 < denominator * 2 ^ binade rank :=
      Nat.mul_pos denominator_pos (Nat.two_pow_pos _)
    have hsplit : numerator rank * denominator =
        significand rank * (denominator * 2 ^ binade rank) := by
      rw [numerator, Nat.pow_eq]
      ring
    rw [hsplit, roundToEven_of_mul _ hpos]
  unfold rankOf
  dsimp only
  rw [hbinade, Nat.pow_eq, Nat.pow_eq, hround]
  unfold binade significand
  rw [Nat.pow_eq]
  split_ifs <;> omega

theorem rankCount_le_rankOf {m : Nat} (hq : 0 < q) (hm : 1024 ≤ m) (h : q * 2 ^ m ≤ p) :
    rankCount ≤ rankOf p q := by
  obtain ⟨d, hd, hdenominator⟩ := denominator_eq
  have hquotient : 2 ^ (m + d) ≤ p * denominator / q := by
    rw [Nat.le_div_iff_mul_le hq, hdenominator]
    calc 2 ^ (m + d) * q = q * 2 ^ m * 2 ^ d := by ring
      _ ≤ p * 2 ^ d := Nat.mul_le_mul_right _ h
  have hne : p * denominator / q ≠ 0 := by
    have := Nat.two_pow_pos (m + d)
    omega
  have hlog : m + d ≤ (p * denominator / q).log2 := (Nat.le_log2 hne).mpr hquotient
  obtain ⟨k, hk⟩ : ∃ k, (p * denominator / q).log2 = 52 + k :=
    ⟨(p * denominator / q).log2 - 52, by omega⟩
  have hbinade : binadeOf p q = k := by
    rw [binadeOf, hk]
    omega
  have hround : 2 ^ 52 ≤ roundToEven (p * denominator) (q * 2 ^ k) := by
    apply le_trans _ (le_roundToEven _ _)
    rw [← Nat.div_div_eq_div_mul, Nat.le_div_iff_mul_le (Nat.two_pow_pos k), ← pow_add, ← hk]
    exact Nat.log2_self_le hne
  unfold rankOf
  dsimp only
  rw [hbinade, Nat.pow_eq, Nat.pow_eq]
  change 2047 * 2 ^ 52 ≤ _
  omega

theorem rankOf_eq_zero {m : Nat} (hm : 1075 ≤ m) (h : p * 2 ^ m < q) : rankOf p q = 0 := by
  obtain ⟨d, hd, hdenominator⟩ := denominator_eq
  have hless : 2 * (p * denominator) < q := by
    rw [hdenominator]
    calc 2 * (p * 2 ^ d) = p * 2 ^ (d + 1) := by ring
      _ ≤ p * 2 ^ m := Nat.mul_le_mul_left _ (Nat.pow_le_pow_right (by decide) (by omega))
      _ < q := h
  have hsmall : p * denominator < q := by omega
  have hbinade : binadeOf p q = 0 := by
    rw [binadeOf, Nat.div_eq_of_lt hsmall]
    rfl
  have hround : roundToEven (p * denominator) q = 0 := by
    unfold roundToEven
    dsimp only
    rw [Nat.mod_eq_of_lt hsmall, if_pos hless, Nat.div_eq_of_lt hsmall]
  unfold rankOf
  dsimp only
  rw [hbinade, Nat.pow_eq, Nat.pow_eq, pow_zero, Nat.mul_one, hround, Nat.zero_mul]

end Ranks

section Decimals

variable {negative : Bool} {n : Nat} {e : Int} {rank : Fin rankCount}

theorem ofRatio_eq_infinite (h : rankCount ≤ rankOf p q) :
    ofRatio negative p q = .infinite negative := by
  rw [ofRatio, dif_neg (by omega)]

theorem ofRatio_eq_zero (h : rankOf p q = 0) : ofRatio negative p q = zero negative := by
  have hlt : rankOf p q < rankCount := by
    rw [h]
    decide
  rw [ofRatio, dif_pos hlt, zero]
  simp only [h]

/-- From a size on, a number is above every power of ten up to that size. -/
theorem ten_pow_le (hn : n ≠ 0) : 10 ^ (n.log2 / 4) ≤ n := by
  calc 10 ^ (n.log2 / 4) ≤ 16 ^ (n.log2 / 4) := Nat.pow_le_pow_left (by decide) _
    _ = 2 ^ (4 * (n.log2 / 4)) := by rw [pow_mul]; norm_num
    _ ≤ 2 ^ n.log2 := Nat.pow_le_pow_right (by decide) (by omega)
    _ ≤ n := Nat.log2_self_le hn

theorem lt_ten_pow (n : Nat) : n < 10 ^ (2 * (n.log2 / 4) + 2) := by
  calc n < 2 ^ (n.log2 + 1) := Nat.lt_log2_self
    _ ≤ 2 ^ (4 * (n.log2 / 4 + 1)) := Nat.pow_le_pow_right (by decide) (by omega)
    _ = 16 ^ (n.log2 / 4 + 1) := by rw [pow_mul]; norm_num
    _ ≤ 100 ^ (n.log2 / 4 + 1) := Nat.pow_le_pow_left (by decide) _
    _ = 10 ^ (2 * (n.log2 / 4) + 2) := by rw [show 100 = 10 ^ 2 by norm_num, ← pow_mul]; ring_nf

theorem two_pow_le (j : Nat) : 2 ^ (3 * j) ≤ 10 ^ j := by
  calc 2 ^ (3 * j) = 8 ^ j := by rw [pow_mul]; norm_num
    _ ≤ 10 ^ j := Nat.pow_le_pow_left (by decide) _

/-- Reading a decimal is rounding its value, also where no power is computed. -/
theorem ofDecimal_eq (negative : Bool) (n : Nat) (e : Int) :
    ofDecimal negative n e = ofRatio negative (n * 10 ^ e.toNat) (10 ^ (-e).toNat) := by
  have hpos : 0 < 10 ^ (-e).toNat := Nat.pow_pos (by decide)
  unfold ofDecimal
  dsimp only
  by_cases hn : n = 0
  · rw [if_pos hn, ofRatio_eq_zero]
    apply rankOf_eq_zero (le_refl 1075)
    rw [hn, Nat.zero_mul, Nat.zero_mul]
    exact hpos
  · rw [if_neg hn]
    split_ifs with hhigh hlow hsign
    · -- far above the finite range
      rw [ofRatio_eq_infinite]
      obtain ⟨j, hj⟩ : ∃ j, j = 401 := ⟨_, rfl⟩
      have hexponent : (-e).toNat + j ≤ n.log2 / 4 + e.toNat := by omega
      have hj : 1024 ≤ 3 * j := by omega
      apply rankCount_le_rankOf hpos hj
      calc 10 ^ (-e).toNat * 2 ^ (3 * j) ≤ 10 ^ (-e).toNat * 10 ^ j :=
            Nat.mul_le_mul_left _ (two_pow_le j)
        _ = 10 ^ ((-e).toNat + j) := (pow_add _ _ _).symm
        _ ≤ 10 ^ (n.log2 / 4 + e.toNat) := Nat.pow_le_pow_right (by decide) hexponent
        _ = 10 ^ (n.log2 / 4) * 10 ^ e.toNat := pow_add _ _ _
        _ ≤ n * 10 ^ e.toNat := Nat.mul_le_mul_right _ (ten_pow_le hn)
    · -- far below it
      rw [ofRatio_eq_zero]
      obtain ⟨j, hj⟩ : ∃ j, j = 402 := ⟨_, rfl⟩
      have hzero : e.toNat = 0 := by omega
      have hexponent : 2 * (n.log2 / 4) + 2 + j ≤ (-e).toNat := by omega
      have hj : 1075 ≤ 3 * j := by omega
      apply rankOf_eq_zero hj
      rw [hzero, pow_zero, Nat.mul_one]
      calc n * 2 ^ (3 * j) < 10 ^ (2 * (n.log2 / 4) + 2) * 2 ^ (3 * j) :=
            Nat.mul_lt_mul_of_pos_right (lt_ten_pow n) (Nat.two_pow_pos _)
        _ ≤ 10 ^ (2 * (n.log2 / 4) + 2) * 10 ^ j := Nat.mul_le_mul_left _ (two_pow_le j)
        _ = 10 ^ (2 * (n.log2 / 4) + 2 + j) := (pow_add _ _ _).symm
        _ ≤ 10 ^ (-e).toNat := Nat.pow_le_pow_right (by decide) hexponent
    · have hzero : (-e).toNat = 0 := by omega
      rw [hzero, Nat.pow_eq, pow_zero]
    · have hzero : e.toNat = 0 := by omega
      rw [hzero, Nat.pow_eq, pow_zero, Nat.mul_one]

theorem ofDecimal_mul_ten (negative : Bool) (n : Nat) (e : Int) :
    ofDecimal negative (n * 10) e = ofDecimal negative n (e + 1) := by
  rw [ofDecimal_eq, ofDecimal_eq]
  by_cases he : 0 ≤ e
  · have hup : (e + 1).toNat = e.toNat + 1 := by omega
    have hdown : (-e).toNat = 0 ∧ (-(e + 1)).toNat = 0 := by omega
    rw [hup, hdown.1, hdown.2, pow_succ]
    congr 1
    ring
  · have hup : e.toNat = 0 ∧ (e + 1).toNat = 0 := by omega
    have hdown : (-e).toNat = (-(e + 1)).toNat + 1 := by omega
    rw [hup.1, hup.2, hdown, pow_zero, Nat.mul_one, Nat.mul_one, pow_succ]
    exact ofRatio_mul_right negative n _ (by decide)

theorem ofDecimal_mul_ten_pow (negative : Bool) (n k : Nat) (e : Int) :
    ofDecimal negative (n * 10 ^ k) e = ofDecimal negative n (e + k) := by
  induction k generalizing n with
  | zero => simp
  | succ k ih =>
      have hsplit : n * 10 ^ (k + 1) = n * 10 * 10 ^ k := by ring
      have hsum : e + (k : Int) + 1 = e + ((k + 1 : Nat) : Int) := by omega
      rw [hsplit, ih, ofDecimal_mul_ten, hsum]

/-- The sign is kept apart when a decimal is read. -/
theorem ofDecimal_signed (negative : Bool) (h : ofDecimal false n e = .finite false rank) :
    ofDecimal negative n e = .finite negative rank := by
  rw [ofDecimal_eq, ofRatio] at h ⊢
  split_ifs at h ⊢ with hlt
  · cases h
    rfl

theorem ofRatio_numerator (rank : Fin rankCount) :
    ofRatio false (numerator rank) denominator = .finite false rank := by
  have hrank : rankOf (numerator rank) denominator = rank := rankOf_numerator rank
  have hlt : rankOf (numerator rank) denominator < rankCount := by
    rw [hrank]
    exact rank.isLt
  rw [ofRatio, dif_pos hlt]
  simp only [hrank]

end Decimals

end Double

namespace Decimal

open Double

variable {rank : Fin rankCount} {d : Decimal}

theorem readsAs_iff : readsAs rank d = true ↔
    ofDecimal false d.digits d.exponent = .finite false rank := by
  rw [readsAs, beq_iff_eq]

theorem readsAs_candidate {point : Int} {count : Nat} (h : candidate rank point count = some d) :
    readsAs rank d = true := by
  unfold candidate at h
  dsimp only at h
  split_ifs at h <;> cases h <;> assumption

theorem readsAs_exact (rank : Fin rankCount) : readsAs rank (exact rank) = true := by
  obtain ⟨k, hk, hdenominator⟩ := denominator_eq
  have hexact : exact rank = ⟨numerator rank * 5 ^ k, -(k : Int)⟩ := by
    have hcast : (1074 : Int) = ((1074 : Nat) : Int) := rfl
    unfold exact
    rw [hcast, ← hk, Nat.pow_eq]
  have hup : (-(k : Int)).toNat = 0 := by omega
  have hdown : (-(-(k : Int))).toNat = k := by omega
  have hpow : 10 ^ k = denominator * 5 ^ k := by
    rw [hdenominator, ← mul_pow]
    norm_num
  rw [readsAs_iff, hexact, ofDecimal_eq, hup, hdown, pow_zero, Nat.mul_one, hpow,
    ofRatio_mul_right _ _ _ (Nat.pow_pos (by decide))]
  exact ofRatio_numerator rank

theorem readsAs_stripZeros (fuel : Nat) (h : readsAs rank d = true) :
    readsAs rank (stripZeros fuel d) = true := by
  induction fuel generalizing d with
  | zero => exact h
  | succ fuel ih =>
      rw [stripZeros]
      split_ifs with hzero
      · apply ih
        obtain ⟨hmod, -⟩ := (Bool.and_eq_true _ _).mp hzero
        have hdigits : d.digits = d.digits / 10 * 10 := by
          have := of_decide_eq_true hmod
          omega
        rw [readsAs_iff] at h ⊢
        rw [hdigits, ofDecimal_mul_ten] at h
        exact h
      · exact h

theorem readsAs_shortest (rank : Fin rankCount) : readsAs rank (shortest rank) = true := by
  unfold shortest
  dsimp only
  apply readsAs_stripZeros
  cases hfound : (List.range 17).findSome? fun i ↦
      candidate rank (pointOf (numerator rank) denominator) (i + 1) with
  | none => exact readsAs_exact rank
  | some d =>
      obtain ⟨i, -, hi⟩ := List.exists_of_findSome?_eq_some hfound
      exact readsAs_candidate hi

theorem digits_ne_zero (hrank : rank.val ≠ 0) (h : readsAs rank d = true) : d.digits ≠ 0 := by
  intro hzero
  rw [readsAs_iff, hzero, ofDecimal, if_pos rfl, zero] at h
  cases h
  exact hrank rfl

end Decimal

end SafeMarkdown
