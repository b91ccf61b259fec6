import MemoryLeak.Log.Levels
import MemoryLeak.Runs
import Mathlib.Algebra.GroupWithZero.Nat

/-!
# Rate limits

A rate limit is shared by all the calls at one place of the program. What it keeps of the
messages it drops is their number and two times, and a limiter that kept the time of each of them
would log the same.
-/
namespace MemoryLeak.Log
open MemoryLeak.Runs

/-- `struct vlog_rate_limit` without its token bucket. -/
structure RateLimit where
  firstDropped : ℤ
  lastDropped : ℤ
  nDropped : ℕ

/-- `VLOG_RATE_LIMIT_INIT`. -/
def rateLimitInit : RateLimit := ⟨0, 0, 0⟩

/-- A call of `vlog_rate_limit`, with the answer of the token bucket and the time. -/
structure LimitedCall where
  module : VlogModule
  level : VlogLevel
  withdraw : Bool
  now : ℤ

/-- What a call hands to `vlog_valist`. -/
inductive Logged where
  | message
  /-- `Dropped %u log messages in last %u seconds (most recently, %u seconds ago)`. -/
  | dropped (n : ℕ) (first : ℕ) (last : ℕ)
  deriving DecidableEq, Repr

/-- The seconds between two times, as an `unsigned int`. -/
def elapsed (now since : ℤ) : ℕ := ((now - since) % 2 ^ 32).toNat

/-- `vlog_should_drop`: the answer, and what it logs itself. -/
def vlogShouldDrop (rl : RateLimit) (c : LimitedCall) : RateLimit × Bool × List Logged :=
  if !c.module.honorRateLimits then (rl, false, [])
  else if !vlogIsEnabled c.module c.level then (rl, true, [])
  else if !c.withdraw then
    let first := if rl.nDropped = 0 then c.now else rl.firstDropped
    (⟨first, c.now, (rl.nDropped + 1) % 2 ^ 32⟩, true, [])
  else if rl.nDropped = 0 then (rl, false, [])
  else
    ({ rl with nDropped := 0 }, false,
      [.dropped rl.nDropped (elapsed c.now rl.firstDropped) (elapsed c.now rl.lastDropped)])

/-- `vlog_rate_limit`. -/
def vlogRateLimit (rl : RateLimit) (c : LimitedCall) : RateLimit × List Logged :=
  let (rl, drop, logged) := vlogShouldDrop rl c
  (rl, logged ++ if drop then [] else [.message])

/-! ### A limiter that keeps the times -/

/-- The call asks the token bucket and gets no tokens. -/
def LimitedCall.limited (c : LimitedCall) : Bool :=
  c.module.honorRateLimits && vlogIsEnabled c.module c.level && !c.withdraw

/-- The report on the messages dropped at some times. -/
def reportOn (now : ℤ) : List ℤ → List Logged
  | [] => []
  | first :: times =>
    [.dropped (times.length + 1) (elapsed now first) (elapsed now ((first :: times).getLastD 0))]

/-- A limiter that keeps the times of the messages dropped since the last report. When they are
`2 ^ 32` it forgets them all, as the counter does. -/
def keepTimes (times : List ℤ) (c : LimitedCall) : List ℤ × List Logged :=
  if c.limited then
    (if times.length + 1 = 2 ^ 32 then [] else times ++ [c.now], [])
  else if c.module.honorRateLimits && vlogIsEnabled c.module c.level then
    ([], reportOn c.now times ++ [.message])
  else (times, if c.module.honorRateLimits then [] else [.message])

/-- The counter and the two times are those of the list. -/
structure KeepsTimes (rl : RateLimit) (times : List ℤ) : Prop where
  number : rl.nDropped = times.length
  lt : times.length < 2 ^ 32
  first : ∀ t ∈ times.head?, rl.firstDropped = t
  last : ∀ t ∈ times.getLast?, rl.lastDropped = t

theorem keepsTimes_init : KeepsTimes rateLimitInit [] := ⟨rfl, by decide, by simp, by simp⟩

theorem keepsTimes_drop {rl : RateLimit} {times : List ℤ} (h : KeepsTimes rl times) (now : ℤ) :
    KeepsTimes ⟨if rl.nDropped = 0 then now else rl.firstDropped, now, (rl.nDropped + 1) % 2 ^ 32⟩
      (if times.length + 1 = 2 ^ 32 then [] else times ++ [now]) := by
  by_cases hfull : times.length + 1 = 2 ^ 32
  · rw [if_pos hfull]
    refine ⟨?_, by decide, by simp, by simp⟩
    rw [h.number, hfull]
    rfl
  · rw [if_neg hfull]
    have hlt : times.length + 1 < 2 ^ 32 := lt_of_le_of_ne h.lt hfull
    refine ⟨?_, ?_, ?_, ?_⟩
    · rw [h.number, Nat.mod_eq_of_lt hlt, List.length_append, List.length_singleton]
    · rw [List.length_append, List.length_singleton]
      exact hlt
    · intro t ht
      cases times with
      | nil =>
        rw [h.number]
        exact Option.some.inj ht
      | cons first times =>
        have hne : rl.nDropped ≠ 0 := by simp [h.number]
        rw [if_neg hne]
        exact h.first t ht
    · intro t ht
      rw [List.getLast?_append, List.getLast?_singleton, Option.some_or] at ht
      exact Option.some.inj ht

/-- The report made from the counter is that made from the times. -/
theorem report_eq {rl : RateLimit} {times : List ℤ} (h : KeepsTimes rl times) (now : ℤ) :
    (if rl.nDropped = 0 then []
      else [Logged.dropped rl.nDropped (elapsed now rl.firstDropped)
        (elapsed now rl.lastDropped)]) = reportOn now times := by
  cases times with
  | nil => exact if_pos h.number
  | cons first times =>
    have hne : rl.nDropped ≠ 0 := by simp [h.number]
    have hlast : rl.lastDropped = (first :: times).getLastD 0 := by
      refine h.last _ ?_
      rw [List.getLastD_eq_getLast?, List.getLast?_eq_some_getLast (List.cons_ne_nil _ _)]
      rfl
    rw [if_neg hne, h.first first rfl, hlast, h.number]
    rfl

/-- The state after a call and what it logs, by what becomes of the message. -/
theorem vlogRateLimit_eq (rl : RateLimit) (c : LimitedCall) : vlogRateLimit rl c =
    if c.limited then
      (⟨if rl.nDropped = 0 then c.now else rl.firstDropped, c.now,
        (rl.nDropped + 1) % 2 ^ 32⟩, [])
    else if c.module.honorRateLimits && vlogIsEnabled c.module c.level then
      ({ rl with nDropped := 0 }, (if rl.nDropped = 0 then []
        else [Logged.dropped rl.nDropped (elapsed c.now rl.firstDropped)
          (elapsed c.now rl.lastDropped)]) ++ [.message])
    else (rl, if c.module.honorRateLimits then [] else [.message]) := by
  have hzero : rl.nDropped = 0 → { rl with nDropped := 0 } = rl := fun h => by rw [← h]
  by_cases hhonor : c.module.honorRateLimits = true
  · by_cases henabled : vlogIsEnabled c.module c.level = true
    · by_cases hwithdraw : c.withdraw = true
      · by_cases hn : rl.nDropped = 0
        · simp [vlogRateLimit, vlogShouldDrop, LimitedCall.limited, hhonor, henabled, hwithdraw,
            hn, hzero hn]
        · simp [vlogRateLimit, vlogShouldDrop, LimitedCall.limited, hhonor, henabled, hwithdraw,
            hn]
      · simp [vlogRateLimit, vlogShouldDrop, LimitedCall.limited, hhonor, henabled, hwithdraw]
    · simp [vlogRateLimit, vlogShouldDrop, LimitedCall.limited, hhonor, henabled]
  · simp [vlogRateLimit, vlogShouldDrop, LimitedCall.limited, hhonor]

theorem vlogRateLimit_keepTimes {rl : RateLimit} {times : List ℤ} (h : KeepsTimes rl times)
    (c : LimitedCall) : KeepsTimes (vlogRateLimit rl c).1 (keepTimes times c).1 ∧
      (vlogRateLimit rl c).2 = (keepTimes times c).2 := by
  rw [vlogRateLimit_eq, keepTimes]
  by_cases hlimited : c.limited
  · rw [if_pos hlimited, if_pos hlimited]
    exact ⟨keepsTimes_drop h c.now, rfl⟩
  · rw [if_neg hlimited, if_neg hlimited]
    by_cases hasked : (c.module.honorRateLimits && vlogIsEnabled c.module c.level) = true
    · rw [if_pos hasked, if_pos hasked, report_eq h]
      exact ⟨⟨rfl, Nat.two_pow_pos 32, by simp, by simp⟩, rfl⟩
    · rw [if_neg hasked, if_neg hasked]
      exact ⟨h, rfl⟩

/-! ### Accounting -/

/-- The dropped messages that an entry reports. -/
def Logged.reported : Logged → ℕ
  | message => 0
  | dropped n _ _ => n

/-- The dropped messages that have been reported. -/
def reported (logged : List (List Logged)) : ℕ := (logged.flatten.map Logged.reported).sum

/-- A call counts, reports or leaves what is pending, but for a full counter. -/
theorem vlogRateLimit_accounts (rl : RateLimit) (hlt : rl.nDropped < 2 ^ 32) (c : LimitedCall) :
    (vlogRateLimit rl c).1.nDropped < 2 ^ 32 ∧ ∃ k,
      rl.nDropped + (if c.limited then 1 else 0) =
        ((vlogRateLimit rl c).2.map Logged.reported).sum + (vlogRateLimit rl c).1.nDropped +
          2 ^ 32 * k := by
  rw [vlogRateLimit_eq]
  by_cases hlimited : c.limited
  · rw [if_pos hlimited, if_pos hlimited]
    refine ⟨Nat.mod_lt _ (Nat.two_pow_pos 32), (rl.nDropped + 1) / 2 ^ 32, ?_⟩
    rw [List.map_nil, List.sum_nil, Nat.zero_add]
    exact (Nat.mod_add_div (rl.nDropped + 1) (2 ^ 32)).symm
  · rw [if_neg hlimited, if_neg hlimited]
    by_cases hasked : (c.module.honorRateLimits && vlogIsEnabled c.module c.level) = true
    · rw [if_pos hasked]
      refine ⟨Nat.two_pow_pos 32, 0, ?_⟩
      by_cases hn : rl.nDropped = 0
      · simp [hn, Logged.reported]
      · simp [hn, Logged.reported]
    · rw [if_neg hasked]
      refine ⟨hlt, 0, ?_⟩
      cases c.module.honorRateLimits <;> simp [Logged.reported]

theorem exec_accounts (calls : List LimitedCall) (rl : RateLimit) (hlt : rl.nDropped < 2 ^ 32) :
    ∃ k, rl.nDropped + calls.countP LimitedCall.limited =
      reported (exec vlogRateLimit rl calls).2 + (exec vlogRateLimit rl calls).1.nDropped +
        2 ^ 32 * k := by
  induction calls generalizing rl with
  | nil => exact ⟨0, by simp [reported]⟩
  | cons c calls ih =>
    obtain ⟨hlt', k, hk⟩ := vlogRateLimit_accounts rl hlt c
    obtain ⟨j, hj⟩ := ih (vlogRateLimit rl c).1 hlt'
    refine ⟨k + j, ?_⟩
    have hreported : reported (exec vlogRateLimit rl (c :: calls)).2 =
        ((vlogRateLimit rl c).2.map Logged.reported).sum +
          reported (exec vlogRateLimit (vlogRateLimit rl c).1 calls).2 := by
      simp [reported, exec_cons]
    have hend : (exec vlogRateLimit rl (c :: calls)).1 =
        (exec vlogRateLimit (vlogRateLimit rl c).1 calls).1 := rfl
    rw [hreported, hend, List.countP_cons]
    omega

/-- In every run the calls log what those of a limiter that keeps all the times would, and the
messages that were dropped are those reported and those pending, whole counters apart. -/
theorem rate_limit_reports (calls : List LimitedCall) :
    (exec vlogRateLimit rateLimitInit calls).2 = (exec keepTimes [] calls).2 ∧
      ∃ k, calls.countP LimitedCall.limited =
        reported (exec vlogRateLimit rateLimitInit calls).2 +
          (exec vlogRateLimit rateLimitInit calls).1.nDropped + 2 ^ 32 * k := by
  have hsimulates : ∀ rl times c, KeepsTimes rl times → True →
      KeepsTimes (vlogRateLimit rl c).1 (keepTimes times c).1 ∧
        (vlogRateLimit rl c).2 = (keepTimes times c).2 :=
    fun rl times c h _ => vlogRateLimit_keepTimes h c
  have hall : ∀ c ∈ calls, True := fun _ _ => trivial
  obtain ⟨_, hout⟩ := exec_refines hsimulates keepsTimes_init hall
  obtain ⟨k, hk⟩ := exec_accounts calls rateLimitInit (by decide)
  exact ⟨hout, k, by rw [← hk]; exact (Nat.zero_add _).symm⟩

end MemoryLeak.Log
