import Mathlib

/-! The choice of a split between IO and executor units. Gains are projected at three shares of a
window of demand. The ratio of two projected rates is monotone in the share, so the ends of the
window bound what a split gains anywhere in it.
-/

namespace Thredis.Core

def flipClamp (share : ℚ) : ℚ :=
  max (1 / 10 ^ 9) (min share (1 - 1 / 10 ^ 9))

def flipProjectedRate (ioUnits totalUnits : Nat) (ioFrac : ℚ) : ℚ :=
  if ioUnits = 0 ∨ totalUnits ≤ ioUnits then 0
  else
    let f := flipClamp ioFrac
    min (ioUnits / f) ((totalUnits - ioUnits : Nat) / (1 - f))

def flipProjectedGain (candidate now totalUnits : Nat) (ioFrac : ℚ) : ℚ :=
  let base := flipProjectedRate now totalUnits ioFrac
  if base ≤ 0 then 0 else flipProjectedRate candidate totalUnits ioFrac / base - 1

structure FlipDemandWindow where
  samples : Nat
  mean : ℚ
  halfWidth : ℚ

structure FlipPlacementChoice where
  decided : Bool := false
  move : Bool := false
  targetUnits : Nat
  gainMean : ℚ := 0
  gainLow : ℚ := 0
  gainHigh : ℚ := 0
  ioFracLow : ℚ := 0
  ioFracHigh : ℚ := 0

/-- The loop over the splits: `best_mean`, the target and `optimistic`. -/
def flipScan (gain : Nat → ℚ → ℚ) (now : Nat) (mean : ℚ) (points : List ℚ)
    (state : ℚ × Nat × ℚ) (s : Nat) : ℚ × Nat × ℚ :=
  if s = now then state
  else
    let (bestMean, target, optimistic) := state
    let optimistic := points.foldl (fun best f => max best (gain s f)) optimistic
    if bestMean < gain s mean then (gain s mean, s, optimistic) else (bestMean, target, optimistic)

def flipChooseSplit (now totalUnits : Nat) (window : FlipDemandWindow) (requiredGain : ℚ)
    (minSamples : Nat) : FlipPlacementChoice :=
  if totalUnits < 2 ∨ now = 0 ∨ totalUnits ≤ now then { targetUnits := now, decided := true }
  else if window.samples < max 2 minSamples then { targetUnits := now }
  else
    let low := flipClamp (window.mean - window.halfWidth)
    let high := flipClamp (window.mean + window.halfWidth)
    let points := [low, window.mean, high]
    let gain := fun s f => flipProjectedGain s now totalUnits f
    let (bestMean, target, optimistic) := (List.range' 1 (totalUnits - 1)).foldl
      (flipScan gain now window.mean points) (0, now, 0)
    let held : FlipPlacementChoice := {
      decided := decide (optimistic ≤ requiredGain), targetUnits := target
      gainHigh := optimistic, ioFracLow := low, ioFracHigh := high }
    if target = now then held
    else
      let gainLow := points.foldl (fun least f => min least (gain target f)) bestMean
      let moved := { held with gainMean := bestMean, gainLow }
      if requiredGain < gainLow then { moved with decided := true, move := true } else moved

theorem flipClamp_pos (share : ℚ) : 0 < flipClamp share :=
  lt_max_of_lt_left (by norm_num)

theorem flipClamp_lt_one (share : ℚ) : 0 < 1 - flipClamp share :=
  sub_pos.mpr (max_lt (by norm_num) (min_lt_of_right_lt (by norm_num)))

theorem flipClamp_mono {f g : ℚ} (order : f ≤ g) : flipClamp f ≤ flipClamp g :=
  max_le_max_left _ (min_le_min_right _ order)

/-- The larger split gains on the smaller one as the share grows.
Witness: one case for each pair of sides that limits the two rates on the right.
-/
theorem flipProjectedRate_mul {p q : Nat} (larger : p ≤ q) (total : Nat) {f g : ℚ} (order : f ≤ g)
    : flipProjectedRate q total f * flipProjectedRate p total g
      ≤ flipProjectedRate q total g * flipProjectedRate p total f := by
  by_cases edge : p = 0 ∨ total ≤ q
  · rcases edge with rfl | above
    · simp [flipProjectedRate]
    · simp [flipProjectedRate, above]
  · simp only [flipProjectedRate, show ¬ (p = 0 ∨ total ≤ p) by omega,
      show ¬ (q = 0 ∨ total ≤ q) by omega, if_false]
    have cross : ((total - q : Nat) : ℚ) * p ≤ q * (total - p : Nat) := by
      rw [Nat.cast_sub (by omega), Nat.cast_sub (by omega)]
      have : (p : ℚ) ≤ q := Nat.cast_le.mpr larger
      nlinarith
    have := flipClamp_mono order
    have := flipClamp_pos f
    have := flipClamp_pos g
    have := flipClamp_lt_one f
    have := flipClamp_lt_one g
    generalize flipClamp f = f, flipClamp g = g at *
    rcases min_choice (q / g) ((total - q : Nat) / (1 - g)) with left | left <;>
      rcases min_choice (p / f) ((total - p : Nat) / (1 - f)) with right | right <;>
      rw [left, right]
    · calc
        _ ≤ q / f * (p / g) :=
          mul_le_mul (min_le_left ..) (min_le_left ..) (by positivity) (by positivity)
        _ = _ := by ring
    · calc
        _ ≤ (total - q : Nat) / (1 - f) * (p / g) :=
          mul_le_mul (min_le_right ..) (min_le_left ..) (by positivity) (by positivity)
        _ = (total - q : Nat) * p / ((1 - f) * g) := div_mul_div_comm ..
        _ ≤ q * (total - p : Nat) / ((1 - f) * g) := by gcongr
        _ = _ := by rw [mul_comm (1 - f), mul_div_mul_comm]
    · exact mul_le_mul ((min_le_right ..).trans (by gcongr)) ((min_le_left ..).trans (by gcongr))
        (by positivity) (by positivity)
    · calc
        _ ≤ (total - q : Nat) / (1 - f) * ((total - p : Nat) / (1 - g)) :=
          mul_le_mul (min_le_right ..) (min_le_right ..) (by positivity) (by positivity)
        _ = _ := by ring

section
variable {now total : Nat} (used : 0 < now) (room : now < total)
include used room

theorem flipProjectedRate_pos (f : ℚ) : 0 < flipProjectedRate now total f := by
  rw [flipProjectedRate, if_neg (by omega)]
  have := flipClamp_pos f
  have := flipClamp_lt_one f
  have : 0 < total - now := by omega
  exact lt_min (by positivity) (by positivity)

theorem flipProjectedGain_eq (split : Nat) (f : ℚ)
    : flipProjectedGain split now total f
      = flipProjectedRate split total f / flipProjectedRate now total f - 1 :=
  if_neg (not_le.mpr (flipProjectedRate_pos used room f))

/-- What a split gains lies between what it gains at the ends of an interval. -/
theorem flipProjectedGain_between (split : Nat) {low f high : ℚ} (above : low ≤ f)
    (below : f ≤ high)
    : let gain := flipProjectedGain split now total
      min (gain low) (gain high) ≤ gain f ∧ gain f ≤ max (gain low) (gain high) := by
  intro gain
  have base := flipProjectedRate_pos used room
  rcases le_total now split with more | fewer
  · have rises {f g : ℚ} (order : f ≤ g) : gain f ≤ gain g := by
      simp only [gain, flipProjectedGain_eq used room]
      exact sub_le_sub_right ((div_le_div_iff₀ (base f) (base g)).mpr
        (flipProjectedRate_mul more total order)) 1
    exact ⟨min_le_of_left_le (rises above), le_max_of_le_right (rises below)⟩
  · have falls {f g : ℚ} (order : f ≤ g) : gain g ≤ gain f := by
      simp only [gain, flipProjectedGain_eq used room]
      refine sub_le_sub_right ((div_le_div_iff₀ (base g) (base f)).mpr ?_) 1
      linarith [flipProjectedRate_mul fewer total order]
    exact ⟨min_le_of_right_le (falls below), le_max_of_le_left (falls above)⟩
end

/-- The loop ends above every gain at the ends of the window.
Witness: induction over the splits.
-/
theorem flipScan_le (gain : Nat → ℚ → ℚ) (now : Nat) (low mean high : ℚ) (splits : List Nat)
    (state : ℚ × Nat × ℚ)
    : let final := (splits.foldl (flipScan gain now mean [low, mean, high]) state).2.2
      state.2.2 ≤ final
      ∧ ∀ s ∈ splits, s ≠ now → gain s low ≤ final ∧ gain s high ≤ final := by
  induction splits generalizing state with
  | nil => exact ⟨le_rfl, nofun⟩
  | cons first rest ih =>
    have one : let next := (flipScan gain now mean [low, mean, high] state first).2.2
        state.2.2 ≤ next ∧ (first ≠ now → gain first low ≤ next ∧ gain first high ≤ next) := by
      rw [flipScan]
      split
      · exact ⟨le_rfl, absurd ‹_›⟩
      · split <;> simp
    obtain ⟨grows, above⟩ := ih (flipScan gain now mean [low, mean, high] state first)
    refine ⟨one.1.trans grows, fun s member other => ?_⟩
    rcases List.mem_cons.mp member with rfl | later
    · exact ⟨(one.2 other).1.trans grows, (one.2 other).2.trans grows⟩
    · exact above s later other

/-- A move gains more than the bar at every share of the window, and after a decision to stay no
split does at any.
-/
theorem flip_choice_exact (now total : Nat) (used : 0 < now) (room : now < total)
    (window : FlipDemandWindow) (required : ℚ) (bar : 0 ≤ required) (minSamples : Nat)
    : let choice := flipChooseSplit now total window required minSamples
      (choice.move = true → ∀ f, choice.ioFracLow ≤ f → f ≤ choice.ioFracHigh
        → required < flipProjectedGain choice.targetUnits now total f)
      ∧ (choice.decided = true → choice.move = false → ∀ split f, choice.ioFracLow ≤ f
        → f ≤ choice.ioFracHigh → flipProjectedGain split now total f ≤ required) := by
  rw [flipChooseSplit, if_neg (by omega)]
  split
  · simp
  · dsimp only
    generalize flipClamp (window.mean - window.halfWidth) = low
    generalize flipClamp (window.mean + window.halfWidth) = high
    obtain ⟨-, scanned⟩ := flipScan_le (fun s f => flipProjectedGain s now total f) now
      low window.mean high (List.range' 1 (total - 1)) (0, now, 0)
    generalize List.foldl _ _ _ = scan at *
    have stays (paid : scan.2.2 ≤ required) (s : Nat) (f : ℚ) (above : low ≤ f) (below : f ≤ high)
        : flipProjectedGain s now total f ≤ required := by
      by_cases inside : s ∈ List.range' 1 (total - 1) ∧ s ≠ now
      · obtain ⟨atLow, atHigh⟩ := scanned s inside.1 inside.2
        exact ((flipProjectedGain_between used room s above below).2.trans
          (max_le atLow atHigh)).trans paid
      · refine le_trans ?_ bar
        rw [flipProjectedGain_eq used room]
        by_cases same : s = now
        · rw [same, div_self (flipProjectedRate_pos used room f).ne', sub_self]
        · rw [flipProjectedRate, if_pos] <;> simp at inside <;> [norm_num; omega]
    split
    · exact ⟨nofun, fun decided _ => stays (of_decide_eq_true decided)⟩
    · split
      · rename_i paid
        simp only [List.foldl, lt_min_iff] at paid
        exact ⟨fun _ f above below => (lt_min paid.1.1.2 paid.2).trans_le
          (flipProjectedGain_between used room _ above below).1, nofun⟩
      · exact ⟨nofun, fun decided _ => stays (of_decide_eq_true decided)⟩

/-- At a share of one half two of four units are moved to, from one. -/
theorem flip_choice_exact_moves
    : let choice := flipChooseSplit 1 4 ⟨2, 1 / 2, 0⟩ (1 / 2) 2
      choice.move = true ∧ 1 / 2 < flipProjectedGain choice.targetUnits 1 4 (1 / 2) :=
  ⟨by decide +kernel, (flip_choice_exact 1 4 (by decide) (by decide) ⟨2, 1 / 2, 0⟩ (1 / 2)
    (by decide +kernel) 2).1 (by decide +kernel) _ (by decide +kernel) (by decide +kernel)⟩

end Thredis.Core
