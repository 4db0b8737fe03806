import KillMyCluster.Raft.Types

/-! The clocks of a node, as `Timings.withDefaults` repairs them, and the random election timeout.
Durations are 64-bit nanoseconds: the sum that repairs an inverted range, the spread and its shift
by the number of failed campaigns are all taken in that arithmetic. -/

namespace KMC

/-- Nanoseconds. -/
abbrev Duration := Int64

namespace Duration

def millisecond : Duration := 1000000

def second : Duration := 1000000000

end Duration

/-- Zero fields stand for the defaults. -/
structure Timings where
  electionTimeoutMin : Duration := 0
  electionTimeoutMax : Duration := 0
  heartbeatInterval : Duration := 0
  tickInterval : Duration := 0
  commitStallTimeout : Duration := 0
deriving DecidableEq

def defaultTimings : Timings where
  electionTimeoutMin := 750 * Duration.millisecond
  electionTimeoutMax := 1500 * Duration.millisecond
  heartbeatInterval := 150 * Duration.millisecond
  tickInterval := 25 * Duration.millisecond
  commitStallTimeout := 30 * Duration.second

def repairMax (lo hi : Duration) : Duration :=
  if hi ≤ lo then
    let half := lo + lo / 2
    if half ≤ lo then lo + Duration.millisecond else half
  else hi

namespace Timings

def withDefaults (t : Timings) : Timings :=
  let d := defaultTimings
  let lo := if t.electionTimeoutMin ≤ 0 then d.electionTimeoutMin else t.electionTimeoutMin
  { electionTimeoutMin := lo
    electionTimeoutMax := repairMax lo t.electionTimeoutMax
    heartbeatInterval := if t.heartbeatInterval ≤ 0 then d.heartbeatInterval
      else t.heartbeatInterval
    tickInterval := if t.tickInterval ≤ 0 then d.tickInterval else t.tickInterval
    commitStallTimeout := if t.commitStallTimeout = 0 then d.commitStallTimeout
      else t.commitStallTimeout }

/-- The argument of `rand.Int63n` after a number of failed campaigns. -/
def shiftedSpread (t : Timings) (electionAttempts : ℕ) : Int64 :=
  (t.electionTimeoutMax - t.electionTimeoutMin) <<< Int64.ofNat (min electionAttempts 3)

end Timings

/-- `rand.Int63n` on a draw of the random source; `none` is its panic. -/
def int63n (n : Int64) (draw : ℕ) : Option Int64 :=
  if n ≤ 0 then none else some (Int64.ofNat (draw % n.toInt.toNat))

/-- The timeout that `resetElectionTimerLocked` sets. -/
def Timings.electionTimeout (t : Timings) (electionAttempts draw : ℕ) : Option Duration :=
  (int63n (t.shiftedSpread electionAttempts) draw).map fun r => t.electionTimeoutMin + r

/-! ## Operations that do not overflow -/

section Exact

variable {a b : Int64}

theorem bmod_of_fits {n : ℤ} (lo : -2 ^ 63 ≤ n) (hi : n < 2 ^ 63) : n.bmod (2 ^ 64) = n :=
  Int.bmod_eq_of_le (by omega) (by omega)

theorem toInt_add_of_fits (lo : -2 ^ 63 ≤ a.toInt + b.toInt) (hi : a.toInt + b.toInt < 2 ^ 63) :
    (a + b).toInt = a.toInt + b.toInt := by
  rw [Int64.toInt_add, bmod_of_fits lo hi]

theorem toInt_sub_of_fits (lo : -2 ^ 63 ≤ a.toInt - b.toInt) (hi : a.toInt - b.toInt < 2 ^ 63) :
    (a - b).toInt = a.toInt - b.toInt := by
  rw [Int64.toInt_sub, bmod_of_fits lo hi]

theorem toInt_half (h : 0 ≤ a.toInt) : (a / 2).toInt = a.toInt / 2 := by
  have hlt := a.toInt_lt
  rw [Int64.toInt_div, show (2 : Int64).toInt = 2 from rfl, Int.tdiv_eq_ediv_of_nonneg h]
  exact bmod_of_fits (by omega) (by omega)

theorem toNat_toBitVec (h : 0 ≤ a.toInt) : (a.toBitVec.toNat : ℤ) = a.toInt := by
  have hlt := a.toBitVec.isLt
  rw [← Int64.toInt_toBitVec, BitVec.toInt_eq_toNat_cond] at h ⊢
  split at h <;> rename_i hc <;> simp only [hc, if_true, if_false] at h ⊢
  omega

/-- A shift by up to three bits is a multiplication. -/
theorem toInt_shiftLeft {k : ℕ} (hk : k ≤ 3) (h : 0 ≤ a.toInt) (hi : a.toInt * 2 ^ k < 2 ^ 63) :
    (a <<< Int64.ofNat k).toInt = a.toInt * 2 ^ k := by
  have hmod : (Int64.ofNat k).toBitVec.smod 64 = BitVec.ofNat 64 k := by
    obtain rfl | rfl | rfl | rfl : k = 0 ∨ k = 1 ∨ k = 2 ∨ k = 3 := by omega
    all_goals rfl
  have hk' : k < 2 ^ 64 := by omega
  rw [← Int64.toInt_toBitVec, Int64.toBitVec_shiftLeft, hmod, BitVec.shiftLeft_eq',
    BitVec.toInt_shiftLeft, BitVec.toNat_ofNat, Nat.mod_eq_of_lt hk', Nat.shiftLeft_eq]
  have hnonneg : 0 ≤ a.toInt * 2 ^ k := Int.mul_nonneg h (Int.pow_nonneg (by decide))
  rw [Int.natCast_mul, toNat_toBitVec h, Int.natCast_pow, show ((2 : ℕ) : ℤ) = 2 from rfl]
  exact bmod_of_fits (by omega) hi

end Exact

/-! ## Timeouts -/

/-- The upper end is above the lower one, and not even eight times the spread leaves the range. -/
structure Timings.Sane (t : Timings) : Prop where
  floor : 0 < t.electionTimeoutMin.toInt
  spread : t.electionTimeoutMin.toInt < t.electionTimeoutMax.toInt
  fits : t.electionTimeoutMin.toInt +
    8 * (t.electionTimeoutMax.toInt - t.electionTimeoutMin.toInt) ≤ 2 ^ 63

def Timings.floor (t : Timings) : Duration :=
  if t.electionTimeoutMin ≤ 0 then defaultTimings.electionTimeoutMin else t.electionTimeoutMin

theorem Timings.floor_pos (t : Timings) : 0 < t.floor.toInt := by
  unfold floor
  split
  · decide
  · rename_i hpos
    simpa [Int64.le_iff_toInt_le] using hpos

/-- The given range, or the one that an inverted range is repaired to, has room for eight times its
spread. The repair adds half of the lower end, or a millisecond where that sum overflows. -/
def Timings.Roomy (t : Timings) : Prop :=
  if t.floor < t.electionTimeoutMax then
    t.floor.toInt + 8 * (t.electionTimeoutMax.toInt - t.floor.toInt) ≤ 2 ^ 63
  else t.floor.toInt + 8 * (t.floor.toInt / 2) ≤ 2 ^ 63 ∨
    2 ^ 63 ≤ t.floor.toInt + t.floor.toInt / 2 ∧ t.floor.toInt + 8 * 1000000 ≤ 2 ^ 63

instance Timings.decidableRoomy (t : Timings) : Decidable t.Roomy := by
  unfold Timings.Roomy
  infer_instance

/-- A sum of two positive durations overflows to a negative one. -/
theorem toInt_add_pos {a b : Int64} (ha : 0 ≤ a.toInt) (hb : 0 ≤ b.toInt) :
    (a + b).toInt = if a.toInt + b.toInt < 2 ^ 63 then a.toInt + b.toInt
      else a.toInt + b.toInt - 2 ^ 64 := by
  have := a.toInt_lt
  have := b.toInt_lt
  split
  · rw [toInt_add_of_fits (by omega) (by omega)]
  · rw [Int64.toInt_add, Int.bmod_def]
    split <;> omega

/-- What an inverted range is repaired to. -/
theorem toInt_repairMax {lo hi : Duration} (h0 : 0 < lo.toInt) (hinv : hi ≤ lo) :
    (repairMax lo hi).toInt =
      if lo.toInt + lo.toInt / 2 < 2 ^ 63 ∧ 1 < lo.toInt then lo.toInt + lo.toInt / 2
      else (lo + Duration.millisecond).toInt := by
  have hhalf := toInt_half (a := lo) (by omega)
  have hadd := toInt_add_pos (a := lo) (b := lo / 2) (by omega) (by omega)
  rw [hhalf] at hadd
  have hlt := lo.toInt_lt
  rw [repairMax, if_pos hinv]
  simp only [Int64.le_iff_toInt_le, hadd]
  by_cases hfits : lo.toInt + lo.toInt / 2 < 2 ^ 63
  · rw [if_pos hfits] at hadd ⊢
    by_cases hone : 1 < lo.toInt
    · rw [if_neg (by omega), if_pos ⟨hfits, hone⟩, hadd]
    · rw [if_pos (by omega), if_neg (by omega)]
  · rw [if_neg hfits, if_pos (by omega), if_neg (by omega)]

theorem Timings.sane_withDefaults (t : Timings) : t.withDefaults.Sane ↔ t.Roomy := by
  have h0 := t.floor_pos
  have hlt := t.floor.toInt_lt
  have hmilli := toInt_add_pos (a := t.floor) (b := Duration.millisecond) (by omega) (by decide)
  rw [show Duration.millisecond.toInt = 1000000 from rfl] at hmilli
  have hmin : t.withDefaults.electionTimeoutMin = t.floor := rfl
  have hmax : t.withDefaults.electionTimeoutMax = repairMax t.floor t.electionTimeoutMax := rfl
  have hsane : t.withDefaults.Sane ↔
      t.floor.toInt < (repairMax t.floor t.electionTimeoutMax).toInt ∧ t.floor.toInt +
        8 * ((repairMax t.floor t.electionTimeoutMax).toInt - t.floor.toInt) ≤ 2 ^ 63 :=
    ⟨fun h => ⟨h.spread, h.fits⟩, fun h => ⟨h0, h.1, h.2⟩⟩
  rw [hsane, Roomy]
  by_cases hinv : t.electionTimeoutMax ≤ t.floor
  · rw [if_neg (Int64.not_lt.mpr hinv), toInt_repairMax h0 hinv]
    split
    · omega
    · rw [hmilli]
      split <;> omega
  · have hlo := Int64.not_le.mp hinv
    rw [if_pos hlo, repairMax, if_neg hinv]
    have := Int64.lt_iff_toInt_lt.mp hlo
    omega

namespace Timings.Sane

variable {t : Timings}

theorem shiftedSpread (h : t.Sane) (attempts : ℕ) :
    (t.shiftedSpread attempts).toInt =
      (t.electionTimeoutMax.toInt - t.electionTimeoutMin.toInt) * 2 ^ min attempts 3 ∧
    0 < (t.shiftedSpread attempts).toInt ∧
    (t.shiftedSpread attempts).toInt ≤
      8 * (t.electionTimeoutMax.toInt - t.electionTimeoutMin.toInt) := by
  obtain ⟨h0, hlt, hfits⟩ := h
  have hsub : (t.electionTimeoutMax - t.electionTimeoutMin).toInt =
      t.electionTimeoutMax.toInt - t.electionTimeoutMin.toInt :=
    toInt_sub_of_fits (by omega) (by omega)
  have hk : min attempts 3 ≤ 3 := Nat.min_le_right _ _
  unfold Timings.shiftedSpread
  generalize min attempts 3 = k at hk
  have hpow : (2 : ℤ) ^ k = 1 ∨ (2 : ℤ) ^ k = 2 ∨ (2 : ℤ) ^ k = 4 ∨ (2 : ℤ) ^ k = 8 := by
    obtain rfl | rfl | rfl | rfl : k = 0 ∨ k = 1 ∨ k = 2 ∨ k = 3 := by omega
    all_goals decide
  have hmul : (t.electionTimeoutMax - t.electionTimeoutMin).toInt * 2 ^ k < 2 ^ 63 := by
    rw [hsub]
    rcases hpow with e | e | e | e <;> rw [e] <;> omega
  rw [toInt_shiftLeft hk (by omega) hmul, hsub]
  refine ⟨rfl, ?_, ?_⟩ <;> rcases hpow with e | e | e | e <;> rw [e] <;> omega

theorem electionTimeout (h : t.Sane) (attempts draw : ℕ) :
    ∃ timeout, t.electionTimeout attempts draw = some timeout ∧
      t.electionTimeoutMin.toInt ≤ timeout.toInt ∧
      timeout.toInt < t.electionTimeoutMin.toInt + (t.shiftedSpread attempts).toInt := by
  obtain ⟨-, hpos, hle⟩ := h.shiftedSpread attempts
  obtain ⟨h0, hlt, hfits⟩ := h
  have hdraw : draw % (t.shiftedSpread attempts).toInt.toNat <
      (t.shiftedSpread attempts).toInt.toNat := Nat.mod_lt _ (by omega)
  have hint : (Int64.ofNat (draw % (t.shiftedSpread attempts).toInt.toNat)).toInt =
      (draw % (t.shiftedSpread attempts).toInt.toNat : ℕ) :=
    Int64.toInt_ofNat_of_lt (by omega)
  refine ⟨t.electionTimeoutMin +
    Int64.ofNat (draw % (t.shiftedSpread attempts).toInt.toNat), ?_, ?_⟩
  · rw [Timings.electionTimeout, int63n, if_neg]
    · rfl
    · rw [Int64.le_iff_toInt_le]
      exact Int.not_le.mpr hpos
  · rw [toInt_add_of_fits (by omega) (by omega), hint]
    omega

end Timings.Sane

/-- What the randomization of the timer relies on: the argument of `Int63n` is positive and exact,
and so is the timeout. -/
structure Timings.TimerTotal (t : Timings) (electionAttempts : ℕ) : Prop where
  positive : 0 < t.shiftedSpread electionAttempts
  exact : (t.shiftedSpread electionAttempts).toInt =
    (t.electionTimeoutMax.toInt - t.electionTimeoutMin.toInt) * 2 ^ min electionAttempts 3
  timeout : ∀ draw, ∃ timeout, t.electionTimeout electionAttempts draw = some timeout ∧
    t.electionTimeoutMin.toInt ≤ timeout.toInt ∧
    timeout.toInt < t.electionTimeoutMin.toInt +
      8 * (t.electionTimeoutMax.toInt - t.electionTimeoutMin.toInt)

theorem Timings.Sane.timerTotal {t : Timings} (h : t.Sane) (attempts : ℕ) :
    t.TimerTotal attempts := by
  obtain ⟨heq, hpos, hle⟩ := h.shiftedSpread attempts
  refine ⟨Int64.lt_iff_toInt_lt.mpr hpos, heq, fun draw => ?_⟩
  obtain ⟨timeout, hsome, hlo, hhi⟩ := h.electionTimeout attempts draw
  exact ⟨timeout, hsome, hlo, by omega⟩

/-- After three failed campaigns the longest draw shows whether there is room. -/
theorem Timings.TimerTotal.sane {t : Timings} (h0 : 0 < t.electionTimeoutMin.toInt)
    (h : t.TimerTotal 3) : t.Sane := by
  have hpos := Int64.lt_iff_toInt_lt.mp h.positive
  have hexact := h.exact
  have hlt := (t.shiftedSpread 3).toInt_lt
  rw [show (0 : Int64).toInt = 0 from rfl] at hpos
  rw [show ((2 : ℤ) ^ min 3 3) = 8 from rfl] at hexact
  have hmin := t.electionTimeoutMin.toInt_lt
  obtain ⟨timeout, hsome, hlo, hhi⟩ := h.timeout ((t.shiftedSpread 3).toInt.toNat - 1)
  rw [Timings.electionTimeout, int63n, if_neg (Int64.not_le.mpr h.positive), Option.map_some,
    Nat.mod_eq_of_lt (by omega)] at hsome
  obtain rfl := Option.some.inj hsome
  have hdraw : (Int64.ofNat ((t.shiftedSpread 3).toInt.toNat - 1)).toInt =
      (t.shiftedSpread 3).toInt - 1 := by
    rw [Int64.toInt_ofNat_of_lt (by omega)]
    omega
  rw [toInt_add_pos (by omega) (by omega), hdraw] at hlo
  refine ⟨h0, by omega, ?_⟩
  split at hlo <;> omega

def Timings.between (lo hi : Duration) : Timings :=
  { electionTimeoutMin := lo, electionTimeoutMax := hi }

end KMC
