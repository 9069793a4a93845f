import Mathlib.Data.Nat.ModEq
import Mathlib.Data.Nat.Init
import Mathlib.Algebra.Order.Ring.Nat

/-!
# Wrapping counters used modulo an array size

A `w`-bit counter that counts `c` events holds `c % 2 ^ w`; an array of `N` cells is addressed with
the counter modulo `N`.  When `N` is a power of two the two reductions are one, and the cells of any
`N` consecutive events are distinct; for other `N` two of them coincide whenever the counter wraps
among these events (`counter_window_iff`).
-/

namespace ZephyrLog

/-- In a window of `N` consecutive numbers the residue determines the number. -/
theorem eq_of_mod_eq_of_window {N r a b : ℕ} (ha : r ≤ a) (ha' : a < r + N) (hb : r ≤ b)
    (hb' : b < r + N) (h : a % N = b % N) : a = b := by
  obtain ⟨x, rfl⟩ := Nat.exists_eq_add_of_le ha
  obtain ⟨y, rfl⟩ := Nat.exists_eq_add_of_le hb
  have hxy : x ≡ y [MOD N] := Nat.ModEq.add_left_cancel' r h
  rw [hxy.eq_of_lt_of_lt (by omega) (by omega)]

/-- Every residue occurs in a window of `M` consecutive numbers. -/
theorem exists_mod_eq_in_window {M : ℕ} (hM : 0 < M) (x y : ℕ) :
    ∃ z, y ≤ z ∧ z < y + M ∧ z % M = x % M := by
  have hx := Nat.mod_lt x hM
  have hy := Nat.div_add_mod y M
  have hy' := Nat.mod_lt y hM
  rcases le_total (y % M) (x % M) with h | h
  · refine ⟨M * (y / M) + x % M, by omega, by omega, ?_⟩
    rw [Nat.mul_add_mod, Nat.mod_mod]
  · rcases h.eq_or_lt with heq | hlt
    · exact ⟨y, le_rfl, by omega, heq.symm⟩
    · refine ⟨M * (y / M + 1) + x % M, ?_, ?_, ?_⟩
      · rw [Nat.mul_add]
        omega
      · rw [Nat.mul_add]
        omega
      · rw [Nat.mul_add_mod, Nat.mod_mod]

/-- Reading a `w`-bit counter modulo a divisor of `2 ^ w` forgets the wrap. -/
theorem counter_mod_of_dvd {w N : ℕ} (h : N ∣ 2 ^ w) (c : ℕ) :
    (BitVec.ofNat w c).toNat % N = c % N := by
  rw [BitVec.toNat_ofNat, Nat.mod_mod_of_dvd _ h]

/-- Reading a `w`-bit counter modulo any power of two is reduction by one modulus. -/
theorem exists_counter_modulus (w k : ℕ) :
    ∃ M, 0 < M ∧ ∀ c, (BitVec.ofNat w c).toNat % 2 ^ k = c % M := by
  rcases le_total k w with h | h
  · exact ⟨2 ^ k, Nat.two_pow_pos k, counter_mod_of_dvd (pow_dvd_pow 2 h)⟩
  · refine ⟨2 ^ w, Nat.two_pow_pos w, fun c => ?_⟩
    rw [BitVec.toNat_ofNat]
    exact Nat.mod_eq_of_lt
      ((Nat.mod_lt _ (Nat.two_pow_pos w)).trans_le (Nat.pow_le_pow_right two_pos h))

/-- Read modulo `N`, the values of a counter modulo `W` are distinct in the window of `N` numbers
from `j` on exactly when `N` divides `W` or the counter does not wrap in the window. -/
theorem counter_window_iff {W N : ℕ} (hN : 0 < N) (hNW : N ≤ W) (j : ℕ) :
    (∀ a < N, ∀ b < N, (j + a) % W % N = (j + b) % W % N → a = b) ↔ N ∣ W ∨ j % W + N ≤ W := by
  have hW : 0 < W := hN.trans_le hNW
  have hc := Nat.mod_lt j hW
  have hadd (a : ℕ) : (j + a) % W = (j % W + a) % W := (Nat.mod_add_mod j W a).symm
  constructor
  · intro hinj
    by_contra hne
    rw [not_or, Nat.not_le] at hne
    obtain ⟨hdvd, hwrap⟩ := hne
    -- `d` numbers of the window come before the wrap, and `W` leaves the remainder `r`
    obtain ⟨d, hd⟩ := Nat.exists_eq_add_of_le hc.le
    have hr : 0 < W % N := Nat.pos_of_ne_zero fun h => hdvd (Nat.dvd_of_mod_eq_zero h)
    have hrN := Nat.mod_lt W hN
    have hdiv := Nat.div_add_mod W N
    obtain ⟨e, he, her, hed⟩ : ∃ e, 0 < e ∧ e ≤ W % N ∧ e + d ≤ N ∧ W % N < e + d := by
      by_cases h : W % N + d ≤ N
      · exact ⟨W % N, hr, le_rfl, h, by omega⟩
      · exact ⟨N - d, by omega, by omega, by omega, by omega⟩
    have hbefore : (j + (d - 1 - (W % N - e))) % W % N = e - 1 := by
      have hx : j % W + (d - 1 - (W % N - e)) = N * (W / N) + (e - 1) := by omega
      have hlt : N * (W / N) + (e - 1) < W := by omega
      rw [hadd, hx, Nat.mod_eq_of_lt hlt, Nat.mul_add_mod]
      exact Nat.mod_eq_of_lt (by omega)
    have hafter : (j + (d + (e - 1))) % W % N = e - 1 := by
      have hx : j % W + (d + (e - 1)) = W + (e - 1) := by omega
      have hlt : e - 1 < W := by omega
      rw [hadd, hx, Nat.add_mod_left, Nat.mod_eq_of_lt hlt]
      exact Nat.mod_eq_of_lt (by omega)
    have := hinj _ (by omega) _ (by omega) (hbefore.trans hafter.symm)
    omega
  · rintro (hdvd | hroom) a ha b hb hab
    · rw [Nat.mod_mod_of_dvd _ hdvd, Nat.mod_mod_of_dvd _ hdvd] at hab
      have := eq_of_mod_eq_of_window (r := j) (by omega) (by omega) (by omega) (by omega) hab
      omega
    · have hlt {x : ℕ} (hx : x < N) : (j % W + x) % W = j % W + x := Nat.mod_eq_of_lt (by omega)
      rw [hadd, hadd, hlt ha, hlt hb] at hab
      have := eq_of_mod_eq_of_window (r := j % W) (by omega) (by omega) (by omega) (by omega) hab
      omega

end ZephyrLog
