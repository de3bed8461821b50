import NumStack.Decimal
import NumStack.Proofs.Rounding

/-!
# Shortest decimals round back

The decimal chosen for a code lies in the rounding interval of the code, so rounding it gives the
code again. The intervals of different codes lie in the order of the codes, hence so do their
decimals.
-/

namespace NumStack

namespace RoundingInterval

/-! ## The search for a grid -/

theorem between_of_contains (i : RoundingInterval) (n : Nat) (h : i.contains n = true) :
    i.twiceLow ≤ 2 * n ∧ 2 * n ≤ i.twiceHigh := by
  unfold contains at h
  split at h
  · exact of_decide_eq_true h
  · have hlt := of_decide_eq_true h
    omega

/-- The point of a grid chosen for an interval lies in it. -/
theorem contains_of_gridPoint? (i : RoundingInterval) (step n : Nat)
    (h : i.gridPoint? step = some n) : i.contains (n * step) = true := by
  unfold gridPoint? at h
  dsimp only at h
  split at h
  · rename_i hupper
    cases h
    exact (Bool.and_eq_true_iff.1 hupper).1
  · split at h
    · rename_i hlower
      cases h
      exact hlower
    · cases h

/-- **The search ends in the interval**, at the latest with the value itself. -/
theorem contains_coarsest (i : RoundingInterval) (hvalue : i.contains i.value = true) (j : Nat) :
    i.contains ((i.coarsest j).2 * 10 ^ (i.coarsest j).1) = true := by
  induction j with
  | zero => simpa [coarsest] using hvalue
  | succ j ih =>
    unfold coarsest
    split
    · rename_i n hn
      exact i.contains_of_gridPoint? _ n hn
    · exact ih

end RoundingInterval

namespace Format

variable (f : Format)

/-! ## Rounding intervals -/

/-- The upper end of the interval of a code is the midpoint to the next code. -/
theorem interval_twiceHigh (c : Nat) : (f.interval c).twiceHigh = 5 ^ f.scale * f.twiceMid c := by
  show f.units c * 5 ^ f.scale + f.units (c + 1) * 5 ^ f.scale = _
  rw [twiceMid]
  ring

/-- The lower end of the interval of a code is the upper end of that of the code before. -/
theorem interval_twiceLow (c : Nat) :
    (f.interval (c + 1)).twiceLow = 5 ^ f.scale * f.twiceMid c := by
  show f.units c * 5 ^ f.scale + f.units (c + 1) * 5 ^ f.scale = _
  rw [twiceMid]
  ring

/-- A positive code lies strictly inside its interval. -/
theorem interval_contains_value (c : Nat) :
    (f.interval (c + 1)).contains (f.interval (c + 1)).value = true := by
  have hpow : 0 < 5 ^ f.scale := by positivity
  have hlow : f.steps c < f.steps (c + 1) := Nat.mul_lt_mul_of_pos_right (f.units_lt_succ c) hpow
  have hhigh : f.steps (c + 1) < f.steps (c + 2) :=
    Nat.mul_lt_mul_of_pos_right (f.units_lt_succ (c + 1)) hpow
  show (if _ then decide (f.steps c + f.steps (c + 1) ≤ 2 * f.steps (c + 1) ∧
      2 * f.steps (c + 1) ≤ f.steps (c + 1) + f.steps (c + 2))
    else decide (f.steps c + f.steps (c + 1) < 2 * f.steps (c + 1) ∧
      2 * f.steps (c + 1) < f.steps (c + 1) + f.steps (c + 2))) = true
  split
  · exact decide_eq_true (by omega)
  · exact decide_eq_true (by omega)

/-- **Every value of the interval of a code rounds to that code.** -/
theorem nearest_eq_of_contains (hf : f.Regular) (c n : Nat) (hc : c + 1 < f.infinity)
    (h : (f.interval (c + 1)).contains n = true) : f.nearest n (5 ^ f.scale) = c + 1 := by
  have hpow : 0 < 5 ^ f.scale := by positivity
  have hends : (5 ^ f.scale * f.twiceMid c < 2 * n ∨
        (5 ^ f.scale * f.twiceMid c = 2 * n ∧ (c + 1) % 2 = 0)) ∧
      (2 * n < 5 ^ f.scale * f.twiceMid (c + 1) ∨
        (2 * n = 5 ^ f.scale * f.twiceMid (c + 1) ∧ (c + 1) % 2 = 0)) := by
    rw [← f.interval_twiceLow c, ← f.interval_twiceHigh (c + 1)]
    unfold RoundingInterval.contains at h
    split at h
    · rename_i hclosed
      have heven : (c + 1) % 2 = 0 := by simpa [interval] using hclosed
      have hle := of_decide_eq_true h
      omega
    · have hlt := of_decide_eq_true h
      omega
  apply Nat.le_antisymm
  · exact (f.nearest_le_iff hf n (5 ^ f.scale) (c + 1) hpow hc).2 hends.2
  · -- otherwise the value would stay below the midpoint under the code
    apply Nat.lt_of_not_le
    intro hle
    have hbelow := (f.nearest_le_iff hf n (5 ^ f.scale) c hpow (by omega)).1 hle
    rcases hbelow with hlt | ⟨heq, heven⟩ <;> omega

/-! ## Shortest decimals -/

/-- A grid point as a decimal keeps its value. -/
theorem gridDecimal_value (j n : Nat) :
    (f.gridDecimal j n).numerator * 10 ^ f.scale =
      n * 10 ^ j * 10 ^ (f.gridDecimal j n).places := by
  unfold gridDecimal
  split
  · rename_i hj
    show n * 10 ^ f.scale = n * 10 ^ j * 10 ^ (f.scale - j)
    rw [mul_assoc, ← pow_add, show j + (f.scale - j) = f.scale by omega]
  · show n * 10 ^ (j - f.scale) * 10 ^ f.scale = n * 10 ^ j * 10 ^ 0
    rw [mul_assoc, ← pow_add, show j - f.scale + f.scale = j by omega, pow_zero, mul_one]

/-- The decimal of a positive code lies in the interval of the code. -/
theorem exists_shortest_contains (c : Nat) :
    ∃ n, (f.interval (c + 1)).contains n = true ∧
      (f.shortest (c + 1)).numerator * 10 ^ f.scale = n * 10 ^ (f.shortest (c + 1)).places := by
  unfold shortest
  rw [if_neg (Nat.succ_ne_zero c)]
  exact ⟨_, RoundingInterval.contains_coarsest _ (f.interval_contains_value c) _,
    f.gridDecimal_value _ _⟩

/-- **Round trip.** The shortest decimal of a finite code rounds to that code. -/
theorem nearest_shortest (hf : f.Regular) (c : Nat) (hc : c < f.infinity) :
    f.nearest ((f.shortest c).numerator * 2 ^ f.scale) (10 ^ (f.shortest c).places) = c := by
  cases c with
  | zero => simp [shortest, nearest_zero]
  | succ c =>
    obtain ⟨n, hn, hvalue⟩ := f.exists_shortest_contains c
    have hten : 10 ^ f.scale = 2 ^ f.scale * 5 ^ f.scale := Nat.mul_pow 2 5 f.scale
    refine (f.nearest_congr hf _ _ n (5 ^ f.scale) (by positivity) (by positivity) ?_).trans
      (f.nearest_eq_of_contains hf c n hc hn)
    rw [← hvalue, hten, mul_assoc]

/-- **Shortest decimals ascend with their codes.** -/
theorem shortest_mono (c c' : Nat) (h : c ≤ c') :
    (f.shortest c).numerator * 10 ^ (f.shortest c').places ≤
      (f.shortest c').numerator * 10 ^ (f.shortest c).places := by
  rcases Nat.eq_or_lt_of_le h with rfl | hlt
  · exact Nat.le_refl _
  cases c with
  | zero => simp [shortest]
  | succ c =>
    obtain ⟨d, rfl⟩ : ∃ d, c' = d + 1 := ⟨c' - 1, by omega⟩
    obtain ⟨n, hn, hvalue⟩ := f.exists_shortest_contains c
    obtain ⟨n', hn', hvalue'⟩ := f.exists_shortest_contains d
    have hle : n ≤ n' := by
      have hhigh := (RoundingInterval.between_of_contains _ n hn).2
      have hlow := (RoundingInterval.between_of_contains _ n' hn').1
      rw [interval_twiceHigh] at hhigh
      rw [interval_twiceLow] at hlow
      have hmid : 5 ^ f.scale * f.twiceMid (c + 1) ≤ 5 ^ f.scale * f.twiceMid d :=
        Nat.mul_le_mul_left _ (f.twiceMid_strictMono.monotone (by omega))
      omega
    have hpow : 0 < 10 ^ f.scale := by positivity
    apply Nat.le_of_mul_le_mul_right _ hpow
    calc (f.shortest (c + 1)).numerator * 10 ^ (f.shortest (d + 1)).places * 10 ^ f.scale
        = n * (10 ^ (f.shortest (c + 1)).places * 10 ^ (f.shortest (d + 1)).places) := by
          rw [mul_right_comm, hvalue, mul_assoc]
      _ ≤ n' * (10 ^ (f.shortest (c + 1)).places * 10 ^ (f.shortest (d + 1)).places) :=
          Nat.mul_le_mul_right _ hle
      _ = (f.shortest (d + 1)).numerator * 10 ^ (f.shortest (c + 1)).places * 10 ^ f.scale := by
          rw [mul_right_comm (f.shortest (d + 1)).numerator, hvalue', mul_assoc,
            mul_comm (10 ^ (f.shortest (d + 1)).places)]

end Format

namespace Binary

variable {f : Format}

theorem ofDecimal_eq (s : Bool) (d : Decimal) :
    (ofDecimal s d : Binary f) = ofRatio s (d.numerator * 2 ^ f.scale) (10 ^ d.places) := rfl

/-- The shortest decimal of a finite number, with its sign, is rounded to that number. -/
theorem ofDecimal_shortest (hf : f.Regular) (s : Bool) (c : Nat) (h : c ≤ f.infinity)
    (hc : c < f.infinity) : ofDecimal s (f.shortest c) = number s c h := by
  simp only [ofDecimal_eq, ofRatio, f.nearest_shortest hf c hc]

end Binary

end NumStack
