import DpdkStudy.Lib.Runs

/-!
# Spending from an allowance that is refilled

A system takes steps, and a step has a cost. What it may spend is held in a
level, which is refilled by a fixed amount for each period that its clock
moves on (`Refills`). Over a run, what is spent is then bounded by the level
at the start and the refills of the periods in between
(`Refills.spent_add_level_le`), and over a window that starts with a step
by the most that the level can hold (`Refills.spent_window_le`).
-/

namespace Allowance

open Runs

variable {σ ε : Type*} {step : σ → ε → σ} {cost : σ → ε → ℕ} {Ok : σ → ε → Prop}

/-- What a run spends. -/
def spent (step : σ → ε → σ) (cost : σ → ε → ℕ) : σ → List ε → ℕ
  | _, [] => 0
  | s, e :: es => cost s e + spent step cost (step s e) es

/-- **The level is refilled by `amount` for each period** of the clock, and
pays for the steps. -/
def Refills (step : σ → ε → σ) (cost : σ → ε → ℕ) (Ok : σ → ε → Prop)
    (level clock : σ → ℕ) (period amount : ℕ) : Prop :=
  ∀ s e, Ok s e → ∃ n, clock (step s e) = clock s + n * period
    ∧ cost s e + level (step s e) ≤ level s + n * amount

variable {level clock : σ → ℕ} {period amount : ℕ}

/-- A run spends no more than it finds and is refilled with. -/
theorem Refills.spent_add_level_le (h : Refills step cost Ok level clock period amount) {s : σ}
    {es : List ε} (hes : Along step Ok s es) :
    ∃ n, clock (run step s es) = clock s + n * period
      ∧ spent step cost s es + level (run step s es) ≤ level s + n * amount := by
  induction es generalizing s with
  | nil =>
    refine ⟨0, ?_, ?_⟩
    · rw [Nat.zero_mul]
      rfl
    · rw [Nat.zero_mul]
      exact Nat.le_of_eq (Nat.zero_add _)
  | cons e es ih =>
    obtain ⟨n, hclock, hlevel⟩ := h s e hes.1
    obtain ⟨m, hclock', hlevel'⟩ := ih hes.2
    refine ⟨n + m, ?_, ?_⟩
    · show clock (run step (step s e) es) = _
      rw [hclock', hclock, Nat.add_mul, Nat.add_assoc]
    · show cost s e + spent step cost (step s e) es + level (run step (step s e) es) ≤ _
      rw [Nat.add_mul]
      omega

/-- **A window** that starts with a step spends no more than the level can
hold and the refills of the periods since that step. -/
theorem Refills.spent_window_le (h : Refills step cost Ok level clock period amount)
    (hperiod : 0 < period) {cap : ℕ} {s : σ} {e : ε} {es : List ε}
    (hcap : cost s e + level (step s e) ≤ cap) (hes : Along step Ok (step s e) es) :
    spent step cost s (e :: es)
      ≤ cap + amount * ((clock (run step s (e :: es)) - clock (step s e)) / period) := by
  obtain ⟨n, hclock, hlevel⟩ := h.spent_add_level_le hes
  have hn : (clock (run step (step s e) es) - clock (step s e)) / period = n := by
    rw [hclock, Nat.add_sub_cancel_left, Nat.mul_div_cancel _ hperiod]
  show cost s e + spent step cost (step s e) es
    ≤ cap + amount * ((clock (run step (step s e) es) - clock (step s e)) / period)
  rw [hn, Nat.mul_comm]
  omega

end Allowance
