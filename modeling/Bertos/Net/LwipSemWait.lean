import Bertos.Lib.CTypes

/-!
# Waiting for a semaphore of lwIP (`bertos/net/lwip/src/arch/sys_arch.c`)

`sys_arch_sem_wait` polls the clock and the mutex, and finds out from the time alone whether it has been lucky. The
clock and the attempts are arbitrary. `ticks_t` and `mtime_t` are 32-bit signed numbers whose arithmetic wraps, and
`tps` is `TIMER_TICKS_PER_SEC`.
-/

namespace Bertos

def msToTicks (tps : ℕ) (ms : ℤ) : ℤ :=
  if tps < 1000 then (toSigned 32 (ms * tps)).tdiv 1000 else toSigned 32 (ms * ((tps + 500) / 1000 : ℕ))

def ticksToMs (tps : ℕ) (ticks : ℤ) : ℤ :=
  if tps < 1000 then (toSigned 32 (ticks * 1000)).tdiv tps else ticks.tdiv (tps / 1000 : ℕ)

def sysArchTimeout : ℕ := 0xffffffff

/-- `ms_to_ticks(timeout)`, with the conversion of the `u32_t`. -/
def timeoutTicks (tps : ℕ) (timeout : UInt32) : ℤ := msToTicks tps (toSigned 32 timeout.toNat)

/-- The loop: what `timer_clock` returns each time, and what `mutex_attempt` would. When the loop ends, `end - start`,
and whether the last attempt was successful. -/
def semPoll (ticks start : ℤ) : List (ℤ × Bool) → Option (ℤ × Bool)
  | [] => none
  | (clock, attempt) :: rest =>
    let elapsed := toSigned 32 (clock - start)
    if elapsed < ticks then
      if attempt then some (elapsed, true) else semPoll ticks start rest
    else some (elapsed, false)

/-- `(u32_t)ticks_to_ms(end - start)`. -/
def elapsedMs (tps : ℕ) (elapsed : ℤ) : ℕ := toUnsigned 32 (ticksToMs tps elapsed)

/-- What `sys_arch_sem_wait` returns, and whether the caller has got the mutex. `mutex_obtain` returns when it has. -/
def sysArchSemWait (tps : ℕ) (timeout : UInt32) (start : ℤ) (reads : List (ℤ × Bool)) : Option (ℕ × Bool) :=
  if timeout = 0 then reads.head?.map fun r => (elapsedMs tps (toSigned 32 (r.1 - start)), true)
  else (semPoll (timeoutTicks tps timeout) start reads).map fun r =>
    (if timeoutTicks tps timeout < r.1 then sysArchTimeout else elapsedMs tps r.1, r.2)

/-- The mutex has been obtained exactly if the loop was left before the time. -/
theorem semPoll_acquired {ticks start elapsed : ℤ} {acquired : Bool} {reads : List (ℤ × Bool)}
    (h : semPoll ticks start reads = some (elapsed, acquired)) : acquired = true ↔ elapsed < ticks := by
  induction reads with
  | nil => exact absurd h (by simp [semPoll])
  | cons r rest ih =>
    obtain ⟨clock, attempt⟩ := r
    simp only [semPoll] at h
    split_ifs at h with hlt hatt
    · cases h
      exact iff_of_true rfl hlt
    · exact ih h
    · cases h
      exact iff_of_false Bool.false_ne_true hlt

/-- **When `sys_arch_sem_wait` tells the truth**: unless the time that has passed reads as `SYS_ARCH_TIMEOUT`, exactly
if the loop is not left at the very tick of the time-out. -/
theorem sysArchSemWait_truthful_iff (tps : ℕ) (timeout : UInt32) (start elapsed : ℤ) (acquired : Bool)
    (reads : List (ℤ × Bool)) (htimeout : timeout ≠ 0)
    (hpoll : semPoll (timeoutTicks tps timeout) start reads = some (elapsed, acquired)) :
    ∃ v, sysArchSemWait tps timeout start reads = some (v, acquired) ∧
      ((v ≠ sysArchTimeout ↔ acquired = true) ↔
        if elapsedMs tps elapsed = sysArchTimeout then acquired = false else elapsed ≠ timeoutTicks tps timeout) := by
  have hacq := semPoll_acquired hpoll
  refine ⟨_, by rw [sysArchSemWait, if_neg htimeout, hpoll, Option.map_some], ?_⟩
  rw [hacq, ← Bool.not_eq_true, hacq]
  by_cases hms : elapsedMs tps elapsed = sysArchTimeout
  · simp [hms]
  · by_cases hlt : timeoutTicks tps timeout < elapsed
    · simp [hms, hlt, Int.le_of_lt hlt, Int.ne_of_gt hlt]
    · simp [hms, hlt]
      omega

/-- After three of five milliseconds the mutex is free. -/
theorem sysArchSemWait_truthful_free :
    ∃ v, sysArchSemWait 1000 5 0 [(1, false), (3, true)] = some (v, true) ∧ (v ≠ sysArchTimeout ↔ true = true) := by
  obtain ⟨v, hv, h⟩ := sysArchSemWait_truthful_iff 1000 5 0 3 true [(1, false), (3, true)] (by decide) (by decide)
  exact ⟨v, hv, h.mpr (by decide)⟩

/-- The last reading of the clock is five ticks after the start: the caller is told that it waited for five
milliseconds, and no attempt has been successful. -/
theorem sysArchSemWait_untrue : sysArchSemWait 1000 5 0 [(1, false), (5, false)] = some (5, false) := by
  decide

end Bertos
