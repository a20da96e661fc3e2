import Mathlib.Data.BitVec
import Mathlib.Data.List.Basic
set_option autoImplicit false

/-!
# Foundation: fields of a word

A field is a run of bits.  Its mask is built from two shifts, and it is read by masking
and shifting down by the position of the lowest bit of the mask.  A word is determined by
its fields and by the bits outside of them.
-/

namespace PmuEvents.Foundation.BitField

variable {w : Nat}

/-- The mask of the bits from `low` to `high`. -/
def genmask (w high low : Nat) : BitVec w :=
  (BitVec.allOnes w <<< low) &&& (BitVec.allOnes w >>> (w - 1 - high))

/-- The position of the lowest bit of a mask. -/
def shift (mask : BitVec w) : Nat := (List.range w).findIdx fun i => mask.getLsbD i

/-- The bits of a word under a mask, shifted down. -/
def get (mask word : BitVec w) : BitVec w := (word &&& mask) >>> shift mask

theorem getLsbD_genmask {high low : Nat} (hhigh : high < w) (i : Nat) :
    (genmask w high low).getLsbD i = decide (low ≤ i ∧ i ≤ high) := by
  rw [genmask, BitVec.getLsbD_and, BitVec.getLsbD_shiftLeft, BitVec.getLsbD_ushiftRight,
    BitVec.getLsbD_allOnes, BitVec.getLsbD_allOnes]
  by_cases hlow : low ≤ i
  · by_cases hi : i ≤ high
    · have h1 : i < w := by omega
      have h2 : ¬ i < low := by omega
      have h3 : i - low < w := by omega
      have h4 : w - 1 - high + i < w := by omega
      simp [hlow, hi, h1, h2, h3, h4]
    · have h4 : ¬ w - 1 - high + i < w := by omega
      simp [hi, h4]
  · have h2 : i < low := by omega
    simp [hlow, h2]

theorem shift_genmask {high low : Nat} (hlow : low ≤ high) (hhigh : high < w) :
    shift (genmask w high low) = low := by
  have hlen : low < (List.range w).length := by
    rw [List.length_range]
    omega
  rw [shift, List.findIdx_eq hlen]
  simp only [List.getElem_range, getLsbD_genmask hhigh, decide_eq_true_eq, decide_eq_false_iff_not]
  exact ⟨⟨Nat.le_refl _, hlow⟩, fun j hj h => absurd h.1 (by omega)⟩

theorem getLsbD_get {high low : Nat} (hlow : low ≤ high) (hhigh : high < w) (word : BitVec w)
    (i : Nat) :
    (get (genmask w high low) word).getLsbD i =
      (word.getLsbD (low + i) && decide (low + i ≤ high)) := by
  rw [get, shift_genmask hlow hhigh, BitVec.getLsbD_ushiftRight, BitVec.getLsbD_and,
    getLsbD_genmask hhigh]
  simp

/-- A field of `n` bits is below `2 ^ n`. -/
theorem get_lt {high low : Nat} (hlow : low ≤ high) (hhigh : high < w) (word : BitVec w) :
    (get (genmask w high low) word).toNat < 2 ^ (high - low + 1) := by
  apply Nat.lt_pow_two_of_testBit
  intro i hi
  have hbit : (get (genmask w high low) word).getLsbD i = false := by
    rw [getLsbD_get hlow hhigh]
    have : ¬ low + i ≤ high := by omega
    simp [this]
  exact hbit

/-- Two words agree on a field exactly when they agree on each of its bits. -/
theorem get_eq_iff {high low : Nat} (hlow : low ≤ high) (hhigh : high < w)
    (word word' : BitVec w) :
    get (genmask w high low) word = get (genmask w high low) word' ↔
      ∀ i, low ≤ i → i ≤ high → word.getLsbD i = word'.getLsbD i := by
  constructor
  · intro h i hle hge
    have hbit := congrArg (fun v => BitVec.getLsbD v (i - low)) h
    simp only [getLsbD_get hlow hhigh] at hbit
    have hi : low + (i - low) = i := by omega
    simpa [hi, hge] using hbit
  · intro h
    apply BitVec.eq_of_getLsbD_eq
    intro i _
    rw [getLsbD_get hlow hhigh, getLsbD_get hlow hhigh]
    by_cases hi : low + i ≤ high
    · rw [h (low + i) (by omega) hi]
    · simp [hi]

/-- Two words agree outside of a mask exactly when they agree on each bit outside. -/
theorem and_not_eq_iff (mask word word' : BitVec w) :
    word &&& ~~~mask = word' &&& ~~~mask ↔
      ∀ i, mask.getLsbD i = false → word.getLsbD i = word'.getLsbD i := by
  have hbit : ∀ (v : BitVec w) {i : Nat}, i < w → mask.getLsbD i = false →
      (v &&& ~~~mask).getLsbD i = v.getLsbD i := by
    intro v i hw hi
    rw [BitVec.getLsbD_and, BitVec.getLsbD_not, hi, decide_eq_true hw]
    simp
  constructor
  · intro h i hi
    by_cases hw : i < w
    · rw [← hbit word hw hi, h, hbit word' hw hi]
    · rw [BitVec.getLsbD_of_ge _ _ (by omega), BitVec.getLsbD_of_ge _ _ (by omega)]
  · intro h
    apply BitVec.eq_of_getLsbD_eq
    intro i hw
    cases hi : mask.getLsbD i with
    | true => rw [BitVec.getLsbD_and, BitVec.getLsbD_and, BitVec.getLsbD_not, hi]; simp
    | false => rw [hbit word hw hi, hbit word' hw hi, h i hi]

end PmuEvents.Foundation.BitField
