import Bertos.Mware.Event

/-!
# Waiting for one of several events

`event_select` (`mware/event.c`) with the kernel and signals: the fast path looks at the `Signal` of each event, the
slow path maps the events to bits of the calling process's own `Signal` and sleeps on all of them. The caller calls it
again and again on one vector of `n` generic events, while interrupt handlers and other processes call `event_do` and
the timer driver runs, at any point between two steps of the caller.

What the caller is still to be told is read off the log (`owedSince`); `Ledger` is this account against a set of
pending events, with the lowest of them picked first. No `event_do` is dropped as long as the wait of the slow path
never finds two of its signals pending (`eventSelect_reports`).
-/

namespace Bertos

open List Function TimeoutCall Option

/-! ## What the caller is still to be told -/

/-- What happens, for the log. An index is an event of the vector, `none` a timeout. -/
inductive SelectEvent
  /-- `event_do` was called. -/
  | did (i : ℕ)
  /-- A call has settled its result. -/
  | picked (r : Option ℕ)
  /-- A call has returned. -/
  | returned (r : Option ℕ)
  deriving DecidableEq

/-- The picks since the event was triggered for the first time after it was picked itself, newest first; `none` when it
was not triggered since. -/
def owedSince (i : ℕ) : List SelectEvent → Option (List (Option ℕ))
  | [] => none
  | .did j :: log => if j = i then some ((owedSince i log).getD []) else owedSince i log
  | .picked r :: log => if r = some i then none else (owedSince i log).map (r :: ·)
  | .returned _ :: log => owedSince i log

/-- Each event that was picked had been triggered since it was picked before. -/
def PicksTriggered : List SelectEvent → Prop
  | [] => True
  | .picked (some i) :: log => (owedSince i log).isSome ∧ PicksTriggered log
  | _ :: log => PicksTriggered log

/-- No event is triggered again, after a pick that reported it, while an event that this pick passed
over still waits. -/
def SelectFair : List SelectEvent → Prop
  | [] => True
  | .did j :: log => (∀ i picks, owedSince i log = some picks → some j ∉ picks) ∧ SelectFair log
  | _ :: log => SelectFair log

theorem SelectFair.of_append {e log : List SelectEvent} (h : SelectFair (e ++ log)) : SelectFair log := by
  induction e with
  | nil => exact h
  | cons x e ih =>
    cases x with
    | did j => exact ih h.2
    | picked r | returned r => exact ih h

/-- What the calls have settled, newest first. -/
def selectPicks : List SelectEvent → List (Option ℕ)
  | [] => []
  | .picked r :: log => r :: selectPicks log
  | _ :: log => selectPicks log

/-- What the calls have returned, newest first. -/
def selectReturns : List SelectEvent → List (Option ℕ)
  | [] => []
  | .returned r :: log => r :: selectReturns log
  | _ :: log => selectReturns log

/-- **The account of a log against the events that are pending**: these are the ones that are owed, and whatever was
picked in the meantime comes before them and is not pending. -/
structure Ledger (n : ℕ) (pending : ℕ → Bool) (log : List SelectEvent) : Prop where
  bound : ∀ i, n ≤ i → owedSince i log = none
  owed : ∀ i, i < n → (owedSince i log).isSome = pending i
  passed : ∀ i picks, owedSince i log = some picks →
    picks.Nodup ∧ ∀ r ∈ picks, ∃ j, j < i ∧ r = some j ∧ pending j = false
  triggered : PicksTriggered log

namespace Ledger

variable {n : ℕ} {p p' : ℕ → Bool} {log : List SelectEvent}

theorem nil (hp : ∀ i, i < n → p i = false) : Ledger n p [] where
  bound _ _ := rfl
  owed i hi := (hp i hi).symm
  passed := nofun
  triggered := trivial

section
variable (h : Ledger n p log)
include h

theorem lt_of_owed {i : ℕ} {l : List (Option ℕ)} (hl : owedSince i log = some l) : i < n := by
  by_contra hi
  rw [h.bound i (by omega)] at hl
  cases hl

theorem congr (hp : ∀ i, i < n → p' i = p i) : Ledger n p' log where
  bound := h.bound
  owed i hi := (h.owed i hi).trans (hp i hi).symm
  passed i l hl := by
    refine ⟨(h.passed i l hl).1, fun r hr => ?_⟩
    obtain ⟨j, hj, hr', hpj⟩ := (h.passed i l hl).2 r hr
    exact ⟨j, hj, hr', (hp j (by have := h.lt_of_owed hl; omega)).trans hpj⟩
  triggered := h.triggered

theorem passed_update {i k : ℕ} {l : List (Option ℕ)} (hl : owedSince k log = some l) (hi : some i ∉ l) (b : Bool) :
    l.Nodup ∧ ∀ r ∈ l, ∃ j, j < k ∧ r = some j ∧ update p i b j = false := by
  refine ⟨(h.passed k l hl).1, fun r hr => ?_⟩
  obtain ⟨j, hj, rfl, hpj⟩ := (h.passed k l hl).2 r hr
  have hji : j ≠ i := fun e => hi (e ▸ hr)
  exact ⟨j, hj, rfl, by rw [update_of_ne hji, hpj]⟩

theorem did {i : ℕ} (hi : i < n) (hfair : ∀ k l, owedSince k log = some l → some i ∉ l) :
    Ledger n (Function.update p i true) (.did i :: log) where
  bound k hk := by
    rw [owedSince, if_neg (by omega)]
    exact h.bound k hk
  owed k hk := by
    by_cases hki : i = k
    · subst hki
      simp [owedSince]
    · rw [owedSince, if_neg hki, update_of_ne (Ne.symm hki)]
      exact h.owed k hk
  passed k l hl := by
    have keep : ∀ l, owedSince k log = some l → _ := fun l hl => h.passed_update hl (hfair k l hl) true
    rw [owedSince] at hl
    split at hl
    · cases ho : owedSince k log with
      | none =>
        rw [ho] at hl
        cases hl
        exact ⟨nodup_nil, nofun⟩
      | some l' =>
        rw [ho] at hl
        cases hl
        exact keep l' ho
    · exact keep l hl
  triggered := h.triggered

theorem pick {i : ℕ} (hi : i < n) (hp : p i = true) (hlow : ∀ k, k < n → p k = true → i ≤ k) :
    Ledger n (Function.update p i false) (.picked (some i) :: log) where
  bound k hk := by
    rw [owedSince, h.bound k hk, map_none, ite_self]
  owed k hk := by
    rw [owedSince]
    by_cases hki : k = i
    · simp [hki]
    · rw [if_neg (by simpa using Ne.symm hki), isSome_map, update_of_ne hki]
      exact h.owed k hk
  passed k l hl := by
    rw [owedSince] at hl
    split at hl
    · cases hl
    · next hne =>
      obtain ⟨l', hl', rfl⟩ := map_eq_some_iff.mp hl
      have hk := h.lt_of_owed hl'
      have hpk : p k = true := by rw [← h.owed k hk, hl', isSome_some]
      have hik : i < k := by
        have hle := hlow k hk hpk
        have hki : i ≠ k := fun e => hne (congrArg some e)
        omega
      -- What was picked while `k` waits is not pending, so that `i` is not among it.
      have hmem : some i ∉ l' := by
        intro hmem
        obtain ⟨j, -, hj, hpj⟩ := (h.passed k l' hl').2 _ hmem
        cases hj
        rw [hp] at hpj
        cases hpj
      obtain ⟨hnodup, hpassed⟩ := h.passed_update hl' hmem false
      exact ⟨nodup_cons.mpr ⟨hmem, hnodup⟩, forall_mem_cons.mpr ⟨⟨i, hik, rfl, update_self ..⟩, hpassed⟩⟩
  triggered := ⟨by rw [h.owed i hi, hp], h.triggered⟩

theorem owed_none (hp : ∀ i, i < n → p i = false) (i : ℕ) : owedSince i log = none := by
  rcases Nat.lt_or_ge i n with hi | hi
  · rw [← isNone_iff_eq_none, ← not_isSome, h.owed i hi, hp i hi, Bool.not_false]
  · exact h.bound i hi

theorem timeout (hp : ∀ i, i < n → p i = false) : Ledger n p (.picked none :: log) := by
  have hnone' : ∀ i, owedSince i (.picked none :: log) = none := by
    intro i
    simp [owedSince, h.owed_none hp i]
  refine ⟨fun i _ => hnone' i, fun i hi => ?_, fun i l hl => ?_, h.triggered⟩
  · rw [hnone', hp i hi, isSome_none]
  · rw [hnone'] at hl
    cases hl

theorem returned (r : Option ℕ) : Ledger n p (.returned r :: log) :=
  { h with }

/-- An event that is owed has waited for fewer than `n` picks. -/
theorem length_lt {i : ℕ} {l : List (Option ℕ)} (hl : owedSince i log = some l) : l.length < n := by
  obtain ⟨hnodup, hlow⟩ := h.passed i l hl
  have hsub : l ⊆ (range i).map some := by
    intro r hr
    obtain ⟨j, hj, rfl, -⟩ := hlow r hr
    exact mem_map_of_mem (mem_range.mpr hj)
  have hle := (subperm_of_subset hnodup hsub).length_le
  rw [length_map, length_range] at hle
  have := h.lt_of_owed hl
  omega

end

end Ledger

/-! ## The code -/

/-- `1 << i`, as a `sigmask_t`. -/
def selectBit (i : ℕ) : UInt8 :=
  .ofBitVec (BitVec.twoPow 8 i)

/-- `(1 << n) - 1`, as a `sigmask_t`. -/
def selectMask (n : ℕ) : UInt8 :=
  selectBit n - 1

def isPow2 (x : UInt8) : Bool :=
  x &&& (x - 1) = 0

def uint8Log2 (x : UInt8) : ℕ :=
  if x < 2 then 0 else if x < 4 then 1 else if x < 8 then 2 else if x < 16 then 3 else if x < 32 then 4
  else if x < 64 then 5 else if x < 128 then 6 else 7

/-- The result of the slow path for the signals that were found, `none` for `-1`. -/
def selectResult (mask : UInt8) : Option ℕ :=
  if mask &&& sigTimeout ≠ 0 then none else some (uint8Log2 mask)

/-- The signals that the slow path waits for: without a timeout it calls `sig_wait`. -/
def selectWait (n : ℕ) (timeout : Ticks) : UInt8 :=
  if timeout = 0 then selectMask n else sigTimeout ||| selectMask n

/-- The action of a generic event: `event_hook_generic_signal` or `event_hook_generic_multiple_signal`. -/
inductive EventHook
  | generic
  | multiple
  deriving DecidableEq

structure GenericEvent where
  action : EventHook
  sig : Signal
  sigBit : UInt8

/-- The caller of `event_select`: its own `Signal`, its timer and its place in the slow path (`call`), the events, and
whether it is in the slow path. -/
structure EventSelect (T : Type) where
  call : TimeoutCall T
  evs : ℕ → GenericEvent
  busy : Bool

inductive SelectAction (T : Type)
  /-- The caller goes on, with a new call when the last one has returned. -/
  | call
  /-- An interrupt handler or another process calls `event_do`. -/
  | eventDo (i : ℕ)
  /-- The timer driver: other timers, ticks and `timer_poll`. -/
  | timer (a : TimerAction T)

section
variable {T : Type} [DecidableEq T]

namespace EventSelect

variable (n : ℕ) (t : T) (timeout : Ticks)

/-- The `Signal` of an event, changed. -/
def setSig (s : EventSelect T) (i : ℕ) (sig : Signal) : EventSelect T :=
  { s with evs := Function.update s.evs i { s.evs i with sig := sig } }

/-- `event_do`: the hook posts the event's bit to its own `Signal`, on which nobody sleeps, or to that of the caller. -/
def eventDo (s : EventSelect T) (i : ℕ) : EventSelect T :=
  match (s.evs i).action with
  | .generic => s.setSig i ((s.evs i).sig.signal (s.evs i).sigBit).2
  | .multiple => { s with call := s.call.deliver (s.evs i).sigBit }

/-- The loop of the fast path: the first of these events that has happened. A check that finds nothing changes
nothing. -/
def scan (evs : ℕ → GenericEvent) : List ℕ → Option ℕ
  | [] => none
  | i :: is => if ((evs i).sig.check eventGenericSignal).1 = eventGenericSignal then some i else scan evs is

def mapAll (evs : ℕ → GenericEvent) (i : ℕ) : GenericEvent :=
  if i < n then { evs i with sigBit := selectBit i, action := .multiple } else evs i

/-- `event_selectSlowPath` up to the call of `sig_wait` or `sig_waitTimeout`. -/
def enterSlowPath (s : EventSelect T) : EventSelect T where
  call := { s.call with pc := if timeout = 0 then .armed else .entry }
  evs := mapAll n s.evs
  busy := true

/-- `event_select` up to the call of `sig_wait` or `sig_waitTimeout`; interrupts are disabled. -/
def fastPath (s : EventSelect T) : EventSelect T × List SelectEvent :=
  match scan s.evs (List.range n) with
  | some i => (s.setSig i ((s.evs i).sig.check eventGenericSignal).2, [.returned (some i), .picked (some i)])
  | none => (s.enterSlowPath n timeout, [])

/-- `sig_wait`, with the places of `sig_waitTimeoutSignal`. -/
def sigWait (c : TimeoutCall T) : Option (TimeoutCall T) :=
  match c.pc with
  | .armed | .woken =>
    match c.sig.waitTurn (selectMask n) with
    | (some res, sig) => some { c with sig := sig, pc := .taken res }
    | (none, sig) => some { c with sig := sig, pc := .asleep }
  | .taken res => some { c with pc := .returned res }
  | _ => none

/-- A step inside `sig_wait` or `sig_waitTimeout`. -/
def waitStep (c : TimeoutCall T) : Option (TimeoutCall T) :=
  if timeout = 0 then sigWait n c else (c.callStep t (selectMask n) timeout).map (·.1)

/-- The wait has taken its signals, which settles the result. -/
def settles : TimeoutPc → List SelectEvent
  | .taken res => [.picked (selectResult res)]
  | _ => []

def slowPath (s : EventSelect T) : Option (EventSelect T × List SelectEvent) :=
  match s.call.pc with
  | .returned res => some ({ s with busy := false }, [.returned (selectResult res)])
  | _ => (waitStep n t timeout s.call).map fun c => ({ s with call := c }, settles c.pc)

def step (s : EventSelect T) : SelectAction T → Option (EventSelect T × List SelectEvent)
  | .call =>
    if s.call.timers.polling then none else if s.busy then s.slowPath n t timeout else some (s.fastPath n timeout)
  | .eventDo i => if i < n then some (s.eventDo i, [.did i]) else none
  | .timer a => if a.Spares t then (s.call.timerStep t a).map fun r => ({ s with call := r.1 }, []) else none

end EventSelect

/-- A process that calls `event_select` on `n` events made by `event_initGeneric`. -/
def selectMachine (n : ℕ) (t : T) (timeout : Ticks) : Machine (EventSelect T) (SelectAction T) SelectEvent where
  init s := s.busy = false ∧ s.call.pc = .entry ∧ s.call.sig.recv &&& (sigTimeout ||| selectMask n) = 0 ∧
    ∀ i, i < n → s.evs i = { action := .generic, sig := { recv := 0, wait := 0 }, sigBit := eventGenericSignal }
  step s a := s.step n t timeout a

/-- Whenever the wait of the slow path looks for its signals, at most one of them is pending. -/
def SelectAlone (n : ℕ) (timeout : Ticks) (s : EventSelect T) : SelectAction T → Prop
  | .call => s.busy = true → s.call.pc = .armed ∨ s.call.pc = .woken →
    isPow2 (s.call.sig.recv &&& selectWait n timeout) = true
  | _ => True

instance (n : ℕ) (timeout : Ticks) (s : EventSelect T) :
    (a : SelectAction T) → Decidable (SelectAlone n timeout s a)
  | .call => inferInstanceAs (Decidable (_ = true → _ ∨ _ → _ = true))
  | .eventDo _ | .timer _ => .isTrue trivial

/-! ## Masks -/

theorem lt_of_hasBit {x : UInt8} {i : ℕ} (h : hasBit x i = true) : i < 8 :=
  BitVec.lt_of_getLsbD h

theorem hasBit_selectBit {i : ℕ} (hi : i < 8) (j : ℕ) : hasBit (selectBit i) j = decide (j = i) := by
  rw [hasBit, selectBit]
  simp [hi, eq_comm]

variable {c c' : TimeoutCall T} {n : ℕ}

theorem hasBit_selectMask (hn : n ≤ 8) (j : ℕ) : hasBit (selectMask n) j = decide (j < n) := by
  have small : ∀ n ≤ 8, ∀ j < 8, hasBit (selectMask n) j = decide (j < n) := by decide
  rcases Nat.lt_or_ge j 8 with hj | hj
  · exact small n hn j hj
  · have hlow : hasBit (selectMask n) j = false := BitVec.getLsbD_of_ge _ _ hj
    rw [hlow]
    simp
    omega

theorem hasBit_selectWait (hn : n ≤ 7) (timeout : Ticks) (j : ℕ) :
    hasBit (selectWait n timeout) j = decide (j < n ∨ j = 7 ∧ timeout ≠ 0) := by
  unfold selectWait
  split
  · next h => simp [hasBit_selectMask (by omega : n ≤ 8), h]
  · next h =>
    rw [hasBit_or, hasBit_sigTimeout, hasBit_selectMask (by omega), ← Bool.decide_or]
    exact decide_eq_decide.mpr ⟨fun hj => hj.symm.imp_right fun h7 => ⟨h7, h⟩, fun hj => (hj.imp_right And.left).symm⟩

theorem isPow2_iff {x : UInt8} : isPow2 x = true ↔ ∀ i j, hasBit x i = true → hasBit x j = true → i = j := by
  have small : ∀ k < 256, isPow2 (UInt8.ofNat k) = true ↔
      ∀ i < 8, ∀ j < 8, hasBit (UInt8.ofNat k) i = true → hasBit (UInt8.ofNat k) j = true → i = j := by
    decide +kernel
  have hx := small x.toNat x.toNat_lt
  rw [UInt8.ofNat_toNat] at hx
  rw [hx]
  constructor
  · exact fun h i j hi hj => h i (lt_of_hasBit hi) j (lt_of_hasBit hj) hi hj
  · exact fun h i _ j _ => h i j

theorem selectResult_selectBit {i : ℕ} (hi : i < 7) : selectResult (selectBit i) = some i := by
  revert i
  decide

/-! ## What a step of the wait does -/

/-- **The steps of `sig_wait` and `sig_waitTimeout`** for the signals `mask`: the caller takes them, or it returns with
them, or it goes on to its sleep. -/
inductive SelectWaits (mask : UInt8) (c c' : TimeoutCall T) : Prop
  | take (hne : c.sig.recv &&& mask ≠ 0) (hpc : c.pc = .armed ∨ c.pc = .woken)
    (hpc' : c'.pc = .taken (c.sig.recv &&& mask))
      (hrecv : c'.sig.recv = c.sig.recv &&& ~~~mask)
  | finish (res : UInt8) (hpc : c.pc = .taken res) (hpc' : c'.pc = .returned res)
      (hrecv : ∀ i, i ≠ 7 → hasBit c'.sig.recv i = hasBit c.sig.recv i)
  | goOn (hpc : c.pc.waits = true) (hpc' : c'.pc.waits = true)
      (hrecv : ∀ i, i ≠ 7 → hasBit c'.sig.recv i = hasBit c.sig.recv i)
      (hsleep : c'.pc = .asleep → c'.sig.wait = mask ∧ c'.sig.recv &&& mask = 0)

omit [DecidableEq T] in
/-- A turn of the wait without a timeout, -/
theorem sigWait_cases (h : EventSelect.sigWait n c = some c') : SelectWaits (selectMask n) c c' := by
  have turn : ∀ c₁, (match c.sig.waitTurn (selectMask n) with
      | (some res, sig) => some { c with sig := sig, pc := .taken res }
      | (none, sig) => some { c with sig := sig, pc := .asleep }) = some c₁ → c.pc = .armed ∨ c.pc = .woken →
      SelectWaits (selectMask n) c c₁ := by
    intro c₁ h hpc
    unfold Signal.waitTurn at h
    by_cases hne : c.sig.recv &&& selectMask n ≠ 0
    · rw [if_pos hne] at h
      cases h
      exact .take hne hpc rfl rfl
    · rw [if_neg hne] at h
      cases h
      refine .goOn ?_ rfl (fun _ _ => rfl) fun _ => ⟨rfl, not_not.mp hne⟩
      rcases hpc with hpc | hpc <;> rw [hpc] <;> rfl
  unfold EventSelect.sigWait at h
  split at h
  · next hpc => exact turn c' h (.inl hpc)
  · next hpc => exact turn c' h (.inr hpc)
  · next res hpc =>
    cases h
    exact .finish res hpc rfl fun _ _ => rfl
  · cases h

/-- and with one. -/
theorem waitStep_cases {t : T} {timeout : Ticks} (h : EventSelect.waitStep n t timeout c = some c') :
    SelectWaits (selectWait n timeout) c c' := by
  unfold EventSelect.waitStep at h
  unfold selectWait
  split at h
  · next h0 =>
    rw [if_pos h0]
    exact sigWait_cases h
  · next h0 =>
    rw [if_neg h0]
    obtain ⟨⟨c₁, e⟩, hs, rfl⟩ := map_eq_some_iff.mp h
    cases callStep_cases hs with
    | take hres hne hpc hpc' hrecv =>
      subst hres
      exact .take hne hpc hpc' hrecv
    | finish hpc hpc' hrecv _ => exact .finish _ hpc hpc' hrecv
    | goOn hpc hpc' hrecv hsleep => exact .goOn hpc hpc' hrecv hsleep

/-- A wait that finds bits of its mask takes them. -/
theorem waitStep_takes {t : T} {timeout : Ticks} (hpc : c.pc = .armed ∨ c.pc = .woken)
    (hne : c.sig.recv &&& selectWait n timeout ≠ 0) (h : EventSelect.waitStep n t timeout c = some c') :
    c'.pc = .taken (c.sig.recv &&& selectWait n timeout) ∧
      c'.sig.recv = c.sig.recv &&& ~~~selectWait n timeout := by
  unfold selectWait at hne ⊢
  unfold EventSelect.waitStep at h
  split at h
  · next h0 =>
    rw [if_pos h0] at hne ⊢
    rcases hpc with hpc | hpc <;>
    · rw [EventSelect.sigWait, hpc, Signal.waitTurn, if_pos hne] at h
      cases h
      exact ⟨rfl, rfl⟩
  · next h0 =>
    rw [if_neg h0] at hne ⊢
    rcases hpc with hpc | hpc <;>
    · rw [callStep, hpc, waitTurn, Signal.waitTurn, if_pos hne] at h
      cases h
      exact ⟨rfl, rfl⟩

/-! ## The invariant -/

namespace EventSelect

variable {n : ℕ} {t : T} {timeout : Ticks} {s s' : EventSelect T} {log e : List SelectEvent}

/-- The event has been triggered, and the caller has not been told. -/
def pending (s : EventSelect T) (i : ℕ) : Bool :=
  match (s.evs i).action with
  | .generic => hasBit (s.evs i).sig.recv 6
  | .multiple => hasBit s.call.sig.recv i

def Unmapped (s : EventSelect T) (n : ℕ) : Prop :=
  s.busy = false ∧ s.call.pc ≠ .asleep ∧ ∀ i, i < n →
    (s.evs i).action = .generic ∧ (s.evs i).sigBit = eventGenericSignal ∧ hasBit s.call.sig.recv i = false

/-- The events are mapped to signals of the caller. -/
def Mapped (s : EventSelect T) (n : ℕ) : Prop :=
  ∀ i, i < n → (s.evs i).action = .multiple ∧ (s.evs i).sigBit = selectBit i ∧ hasBit (s.evs i).sig.recv 6 = false

/-- What the call in progress has settled and not returned yet. -/
def inFlight (s : EventSelect T) : List (Option ℕ) :=
  match s.busy, s.call.pc with
  | true, .taken res | true, .returned res => [selectResult res]
  | _, _ => []

/-- **The invariant**: the pending events are those that the log owes to the caller. -/
structure Inv (n : ℕ) (timeout : Ticks) (s : EventSelect T) (log : List SelectEvent) : Prop where
  phase : s.Unmapped n ∨ s.Mapped n
  asleep : s.call.pc = .asleep →
    s.call.sig.wait = selectWait n timeout ∧ s.call.sig.recv &&& selectWait n timeout = 0
  ledger : Ledger n s.pending log
  settled : selectPicks log = s.inFlight ++ selectReturns log

section
omit [DecidableEq T]

theorem pending_of_unmapped (h : s.Unmapped n) {i : ℕ} (hi : i < n) : s.pending i = hasBit (s.evs i).sig.recv 6 := by
  rw [pending, (h.2.2 i hi).1]

theorem pending_of_mapped (h : s.Mapped n) {i : ℕ} (hi : i < n) : s.pending i = hasBit s.call.sig.recv i := by
  rw [pending, (h i hi).1]

theorem inFlight_of_idle (h : s.busy = false) : s.inFlight = [] := by
  unfold inFlight
  rw [h]

theorem inFlight_of_waits (h : s.call.pc.waits = true) : s.inFlight = [] := by
  unfold inFlight
  split
  · next hpc => rw [hpc] at h; cases h
  · next hpc => rw [hpc] at h; cases h
  · rfl

theorem inFlight_of_taken {res : UInt8} (hb : s.busy = true) (h : s.call.pc = .taken res ∨ s.call.pc = .returned res) :
    s.inFlight = [selectResult res] := by
  unfold inFlight
  rcases h with h | h <;> rw [hb, h]

end

variable {c : TimeoutCall T}

section
omit [DecidableEq T]

/-- What others do moves the caller at most from its sleep to the ready list. -/
theorem inFlight_env (hpc : c.pc = s.call.pc ∨ s.call.pc = .asleep ∧ c.pc = .woken) :
    inFlight { s with call := c } = s.inFlight := by
  rcases hpc with hpc | ⟨hpc, hpc'⟩
  · unfold inFlight
    rw [hpc]
  · have hw : s.call.pc.waits = true := by rw [hpc]; rfl
    have hw' : c.pc.waits = true := by rw [hpc']; rfl
    rw [inFlight_of_waits hw, inFlight_of_waits hw']

/-- Whoever still sleeps after a signal has not been sent one that it waits for. -/
theorem asleep_deliver {mask m : UInt8} (h : c.pc = .asleep → c.sig.wait = mask ∧ c.sig.recv &&& mask = 0)
    (hpc : (c.deliver m).pc = .asleep) : (c.deliver m).sig.wait = mask ∧ (c.deliver m).sig.recv &&& mask = 0 := by
  have hold : c.pc = .asleep := by
    rcases c.deliver_pc m with hp | ⟨hp, -⟩
    · rw [← hp, hpc]
    · exact hp
  obtain ⟨hwait, -⟩ := h hold
  unfold deliver Signal.signal at hpc ⊢
  rw [hwait] at hpc ⊢
  by_cases hne : (c.sig.recv ||| m) &&& mask ≠ 0
  · simp [if_pos hne, hold] at hpc
  · rw [if_neg hne]
    exact ⟨rfl, not_not.mp hne⟩

theorem setSig_evs (i : ℕ) (sig : Signal) (k : ℕ) :
    (s.setSig i sig).evs k = if k = i then { s.evs i with sig := sig } else s.evs k :=
  update_apply ..

/-- The `Signal` of an event changes before the events are mapped. -/
theorem Unmapped.setSig (h : s.Unmapped n) (i : ℕ) (sig : Signal) : (s.setSig i sig).Unmapped n := by
  refine ⟨h.1, h.2.1, fun k hk => ?_⟩
  rw [setSig_evs]
  split
  · next hki =>
    subst hki
    exact h.2.2 k hk
  · exact h.2.2 k hk

theorem Unmapped.pending_setSig (h : s.Unmapped n) (i : ℕ) (sig : Signal) {k : ℕ} (hk : k < n) :
    (s.setSig i sig).pending k = Function.update s.pending i (hasBit sig.recv 6) k := by
  rw [pending_of_unmapped (h.setSig i sig) hk, setSig_evs, update_apply]
  split
  · rfl
  · exact (pending_of_unmapped h hk).symm

end

/-! ## The steps of others -/

section
omit [DecidableEq T]

theorem Inv.env (h : Inv n timeout s log) {e : List SelectEvent}
    (hpc : c.pc = s.call.pc ∨ s.call.pc = .asleep ∧ c.pc = .woken)
    (hasleep : c.pc = .asleep → c.sig.wait = selectWait n timeout ∧ c.sig.recv &&& selectWait n timeout = 0)
    (hphase : Unmapped { s with call := c } n ∨ Mapped { s with call := c } n)
    (hled : Ledger n (pending { s with call := c }) (e ++ log)) (hpick : selectPicks (e ++ log) = selectPicks log)
    (hret : selectReturns (e ++ log) = selectReturns log) : Inv n timeout { s with call := c } (e ++ log) := by
  refine ⟨hphase, hasleep, hled, ?_⟩
  rw [inFlight_env hpc, hpick, hret]
  exact h.settled

/-- An event that is not yet owed may be done. -/
theorem Inv.eventDo (h : Inv n timeout s log) (hn : n ≤ 7) {i : ℕ} (hi : i < n)
    (hfair : ∀ k l, owedSince k log = some l → some i ∉ l) : Inv n timeout (s.eventDo i) (.did i :: log) := by
  have hled := h.ledger.did hi hfair
  rcases h.phase with hun | hmap
  · obtain ⟨hact, hbit, -⟩ := hun.2.2 i hi
    have hdo : s.eventDo i = s.setSig i ((s.evs i).sig.signal eventGenericSignal).2 := by
      rw [EventSelect.eventDo, hact, hbit]
    have hrecv : ((s.evs i).sig.signal eventGenericSignal).2.recv = (s.evs i).sig.recv ||| eventGenericSignal := by
      unfold Signal.signal
      split <;> rfl
    rw [hdo]
    refine ⟨.inl (hun.setSig i _), h.asleep, hled.congr fun k hk => ?_, h.settled⟩
    rw [hun.pending_setSig i _ hk, hrecv]
    simp [hasBit_eventGenericSignal]
  · obtain ⟨hact, hbit, -⟩ := hmap i hi
    have hdo : s.eventDo i = { s with call := s.call.deliver (selectBit i) } := by
      rw [EventSelect.eventDo, hact, hbit]
    have hmap' : Mapped { s with call := s.call.deliver (selectBit i) } n := hmap
    rw [hdo]
    refine h.env (e := [.did i]) (deliver_pc _) (asleep_deliver h.asleep) (.inr hmap')
      (hled.congr fun k hk => ?_) rfl rfl
    rw [pending_of_mapped hmap' hk, deliver_recv, hasBit_or, hasBit_selectBit (by omega)]
    by_cases hki : k = i
    · simp [hki]
    · simp [hki, pending_of_mapped hmap hk]

end

/-- A step of the timer keeps the invariant. -/
theorem Inv.timer (h : Inv n timeout s log) (hn : n ≤ 7) {a : TimerAction T} {ev : List TimeoutEvent}
    (hs : s.call.timerStep t a = some (c, ev)) : Inv n timeout { s with call := c } log := by
  have keep : (∀ i, i < n → hasBit c.sig.recv i = hasBit s.call.sig.recv i) →
      (c.pc = s.call.pc ∨ s.call.pc = .asleep ∧ c.pc = .woken) →
      (c.pc = .asleep → c.sig.wait = selectWait n timeout ∧ c.sig.recv &&& selectWait n timeout = 0) →
      Inv n timeout { s with call := c } log := by
    intro hrecv hpc hasleep
    refine h.env (e := []) hpc hasleep ?_ (h.ledger.congr fun k hk => ?_) rfl rfl
    · refine h.phase.imp (fun hun => ⟨hun.1, ?_, fun k hk => ?_⟩) id
      · rcases hpc with hpc | ⟨-, hpc⟩
        · exact fun e => hun.2.1 (hpc ▸ e)
        · exact fun e => by rw [hpc] at e; cases e
      · obtain ⟨hact, hbit, hlow⟩ := hun.2.2 k hk
        exact ⟨hact, hbit, (hrecv k hk).trans hlow⟩
    · unfold pending
      simp only [hrecv k hk]
  rcases timerStep_cases hs with ⟨hsig, hpc, -⟩ | ⟨timers, rfl, -⟩
  · refine keep (fun i _ => by rw [hsig]) (.inl hpc) fun hp => ?_
    rw [hsig]
    exact h.asleep (hpc ▸ hp)
  · refine keep (fun i hi => ?_) (deliver_pc _) (asleep_deliver h.asleep)
    rw [deliver_recv, hasBit_or, hasBit_sigTimeout, decide_eq_false (by omega), Bool.or_false]

/-! ## The steps of the caller -/

theorem scan_eq_find? (evs : ℕ → GenericEvent) (is : List ℕ) :
    scan evs is = is.find? fun i => hasBit (evs i).sig.recv 6 := by
  induction is with
  | nil => rfl
  | cons i is ih =>
    rw [scan, ih, find?_cons]
    simp only [check_eq_eventGenericSignal]
    cases hasBit (evs i).sig.recv 6 <;> rfl

section
omit [DecidableEq T]

/-- The fast path picks the first pending event. -/
theorem Inv.fastPath (h : Inv n timeout s log) (hb : s.busy = false) :
    Inv n timeout (s.fastPath n timeout).1 ((s.fastPath n timeout).2 ++ log) := by
  have hset := h.settled
  rw [inFlight_of_idle hb] at hset
  cases hscan : scan s.evs (range n) with
  | some i =>
    obtain ⟨hbit, hi, hlow⟩ := find?_range_eq_some.mp ((scan_eq_find? ..).symm.trans hscan)
    rw [mem_range] at hi
    have hun : s.Unmapped n := by
      refine h.phase.resolve_right fun hmap => ?_
      rw [(hmap i hi).2.2] at hbit
      cases hbit
    have hfast : s.fastPath n timeout =
        (s.setSig i ((s.evs i).sig.check eventGenericSignal).2, [.returned (some i), .picked (some i)]) := by
      rw [EventSelect.fastPath, hscan]
    rw [hfast]
    refine ⟨.inl (hun.setSig i _), h.asleep, Ledger.returned ?_ _, ?_⟩
    · have hled := h.ledger.pick hi ((pending_of_unmapped hun hi).trans hbit) fun k hk hp => by
        rw [pending_of_unmapped hun hk] at hp
        exact Nat.le_of_not_lt fun hki => by simpa [hp] using hlow k hki
      refine hled.congr fun k hk => ?_
      rw [hun.pending_setSig i _ hk, Signal.check]
      simp only [hasBit_and_not, hasBit_eventGenericSignal]
      simp
    · rw [inFlight_of_idle (s := s.setSig i _) hb]
      exact congrArg (some i :: ·) hset
  | none =>
    have hnone : ∀ k < n, hasBit (s.evs k).sig.recv 6 = false := by simpa [scan_eq_find?] using hscan
    have hfast : s.fastPath n timeout = (s.enterSlowPath n timeout, []) := by
      rw [EventSelect.fastPath, hscan]
    rw [hfast]
    have hpc : (s.enterSlowPath n timeout).call.pc.waits = true ∧ (s.enterSlowPath n timeout).call.pc ≠ .asleep := by
      unfold enterSlowPath
      split <;> exact ⟨rfl, by simp⟩
    have hmap : (s.enterSlowPath n timeout).Mapped n := by
      intro k hk
      have hev : (s.enterSlowPath n timeout).evs k = { s.evs k with sigBit := selectBit k, action := .multiple } :=
        if_pos hk
      rw [hev]
      exact ⟨rfl, rfl, hnone k hk⟩
    refine ⟨.inr hmap, ?_, h.ledger.congr fun k hk => ?_, ?_⟩
    · exact fun hp => absurd hp hpc.2
    · rw [pending_of_mapped hmap hk]
      rcases h.phase with hun | hm
      · rw [pending_of_unmapped hun hk, hnone k hk]
        exact (hun.2.2 k hk).2.2
      · exact (pending_of_mapped hm hk).symm
    · rw [inFlight_of_waits hpc.1]
      exact hset

/-- What the wait of the slow path takes when only one of its signals is pending: nothing stays pending, and either the
one event is the result, or there is none and the result is a timeout. -/
theorem take_alone (hn : n ≤ 7) (hmap : s.Mapped n) {m : UInt8} (hm : s.call.sig.recv &&& selectWait n timeout = m)
    (hne : m ≠ 0) (halone : isPow2 m = true) :
    (∃ i, i < n ∧ (∀ k, k < n → s.pending k = decide (k = i)) ∧ selectResult m = some i) ∨
    (∀ k, k < n → s.pending k = false) ∧ selectResult m = none := by
  obtain ⟨i, hi⟩ := ne_zero_iff.mp hne
  have hsingle : ∀ k, hasBit m k = decide (k = i) := by
    intro k
    by_cases hk : k = i
    · simp [hk, hi]
    · rw [decide_eq_false hk, ← Bool.not_eq_true]
      exact fun hb => hk (isPow2_iff.mp halone k i hb hi)
  have hpend : ∀ k, k < n → s.pending k = decide (k = i) := by
    intro k hk
    rw [pending_of_mapped hmap hk, ← hsingle k, ← hm, hasBit_and, hasBit_selectWait hn, decide_eq_true (.inl hk),
      Bool.and_true]
  have hres : m = selectBit i := byte_ext fun k => (hsingle k).trans (hasBit_selectBit (lt_of_hasBit hi) k).symm
  rw [← hm, hasBit_and, hasBit_selectWait hn, Bool.and_eq_true, decide_eq_true_iff] at hi
  rcases hi.2 with hin | ⟨rfl, -⟩
  · refine .inl ⟨i, hin, hpend, ?_⟩
    rw [hres, selectResult_selectBit (by omega)]
  · refine .inr ⟨fun k hk => ?_, ?_⟩
    · rw [hpend k hk, decide_eq_false (by omega)]
    · rw [hres]
      decide

theorem pending_take (hn : n ≤ 7) (hmap : s.Mapped n) (hrecv : c.sig.recv = s.call.sig.recv &&& ~~~selectWait n timeout)
    {k : ℕ} (hk : k < n) : pending { s with call := c } k = false := by
  have hmap' : Mapped { s with call := c } n := hmap
  rw [pending_of_mapped hmap' hk, hrecv, hasBit_and_not, hasBit_selectWait hn, decide_eq_true (.inl hk),
    Bool.not_true, Bool.and_false]

end

theorem slowPath_cases (hs : s.slowPath n t timeout = some (s', e)) :
    (∃ res, s.call.pc = .returned res ∧ s' = { s with busy := false } ∧ e = [.returned (selectResult res)]) ∨
    ∃ c, waitStep n t timeout s.call = some c ∧ s' = { s with call := c } ∧ e = settles c.pc := by
  unfold EventSelect.slowPath at hs
  split at hs
  · next res hpc =>
    cases hs
    exact .inl ⟨res, hpc, rfl, rfl⟩
  · obtain ⟨c, hc, hs⟩ := map_eq_some_iff.mp hs
    cases hs
    exact .inr ⟨c, hc, rfl, rfl⟩

omit [DecidableEq T] in
theorem Inv.mapped_of_busy (h : Inv n timeout s log) (hb : s.busy = true) : s.Mapped n := by
  refine h.phase.resolve_left fun hun => ?_
  rw [hun.1] at hb
  cases hb

section
variable (h : Inv n timeout s log) (hn : n ≤ 7)
include h hn

/-- The slow path is sound where a single bit is found, -/
theorem Inv.slowPath (hb : s.busy = true)
    (halone : s.call.pc = .armed ∨ s.call.pc = .woken → isPow2 (s.call.sig.recv &&& selectWait n timeout) = true)
    (hs : s.slowPath n t timeout = some (s', e)) : Inv n timeout s' (e ++ log) := by
  have hmap := h.mapped_of_busy hb
  have hset := h.settled
  rcases slowPath_cases hs with ⟨res, hpc, rfl, rfl⟩ | ⟨c, hc, rfl, rfl⟩
  · refine ⟨.inr hmap, h.asleep, h.ledger.returned _, ?_⟩
    rw [inFlight_of_taken hb (.inr hpc)] at hset
    exact hset
  have hmap' : Mapped { s with call := c } n := hmap
  have hkeep : (∀ i, i ≠ 7 → hasBit c.sig.recv i = hasBit s.call.sig.recv i) →
      Ledger n (pending { s with call := c }) log := by
    intro hrecv
    refine h.ledger.congr fun k hk => ?_
    rw [pending_of_mapped hmap' hk, pending_of_mapped hmap hk]
    exact hrecv k (by omega)
  cases waitStep_cases hc with
  | take hne hpc hpc' hrecv =>
    have hp : ∀ k < n, pending { s with call := c } k = false := fun k hk => pending_take hn hmap hrecv hk
    have hwaits : s.call.pc.waits = true := by rcases hpc with hpc | hpc <;> rw [hpc] <;> rfl
    have hflight : inFlight { s with call := c } = [selectResult (s.call.sig.recv &&& selectWait n timeout)] :=
      inFlight_of_taken hb (.inl hpc')
    rw [inFlight_of_waits hwaits] at hset
    rw [hpc']
    refine ⟨.inr hmap', fun hp => ?_, ?_, ?_⟩
    · rw [hpc'] at hp
      cases hp
    · rw [settles]
      rcases take_alone hn hmap rfl hne (halone hpc) with ⟨i, hi, hpend, hres⟩ | ⟨hpend, hres⟩
      · rw [hres]
        refine (h.ledger.pick hi (by simp [hpend i hi]) fun k hk hpk => ?_).congr fun k hk => ?_
        · rw [hpend k hk, decide_eq_true_iff] at hpk
          exact Nat.le_of_eq hpk.symm
        · rw [hp k hk, update_apply, hpend k hk]
          split
          · rfl
          · next hki => exact (decide_eq_false hki).symm
      · rw [hres]
        exact (h.ledger.timeout hpend).congr fun k hk => (hp k hk).trans (hpend k hk).symm
    · rw [hflight]
      exact congrArg (_ :: ·) hset
  | finish res hpc hpc' hrecv =>
    rw [hpc']
    refine ⟨.inr hmap', fun hp => ?_, hkeep hrecv, ?_⟩
    · rw [hpc'] at hp
      cases hp
    · rw [inFlight_of_taken (s := { s with call := c }) hb (.inr hpc'), ← inFlight_of_taken hb (.inl hpc)]
      exact hset
  | goOn hpc hpc' hrecv hsleep =>
    have he : settles c.pc = [] := by
      unfold settles
      split
      · next hp => rw [hp] at hpc'; cases hpc'
      · rfl
    rw [he]
    refine ⟨.inr hmap', hsleep, hkeep hrecv, ?_⟩
    rw [inFlight_of_waits (s := { s with call := c }) hpc', ← inFlight_of_waits hpc]
    exact hset

/-- and only there. -/
theorem Inv.alone_of_kept (hb : s.busy = true)
    (hpc : s.call.pc = .armed ∨ s.call.pc = .woken) (hs : s.slowPath n t timeout = some (s', e))
    (hkept : ∀ i, (owedSince i (e ++ log)).isSome = true → s'.pending i = true) :
    isPow2 (s.call.sig.recv &&& selectWait n timeout) = true := by
  have hmap := h.mapped_of_busy hb
  by_cases hne : s.call.sig.recv &&& selectWait n timeout = 0
  · rw [hne]
    decide
  rcases slowPath_cases hs with ⟨res, hp, -, -⟩ | ⟨c, hc, rfl, rfl⟩
  · rw [hp] at hpc
    rcases hpc with hpc | hpc <;> cases hpc
  obtain ⟨hpc', hrecv⟩ := waitStep_takes hpc hne hc
  rw [hpc'] at hkept
  generalize hm : s.call.sig.recv &&& selectWait n timeout = m at *
  -- An event that is taken without being the result is owed and not pending any more.
  have hlost : ∀ i, i < n → hasBit m i = true → selectResult m = some i := by
    intro i hi hbit
    by_contra hres
    have howed : (owedSince i log).isSome = true := by
      rw [h.ledger.owed i hi, pending_of_mapped hmap hi]
      rw [← hm, hasBit_and, Bool.and_eq_true] at hbit
      exact hbit.1
    have := hkept i (by
      rw [settles, singleton_append, owedSince, if_neg hres, isSome_map]
      exact howed)
    rw [pending_take hn hmap hrecv hi] at this
    cases this
  refine isPow2_iff.mpr fun i j hi hj => ?_
  have cases7 : ∀ k, hasBit m k = true → k < n ∨ k = 7 := by
    intro k hk
    rw [← hm, hasBit_and, hasBit_selectWait hn, Bool.and_eq_true, decide_eq_true_iff] at hk
    exact hk.2.imp_right And.left
  have timedOut : hasBit m 7 = true → selectResult m = none := by
    intro h7
    refine if_pos fun h0 => ?_
    rw [and_sigTimeout_eq_zero.mp h0] at h7
    cases h7
  rcases cases7 i hi with hin | rfl <;> rcases cases7 j hj with hjn | rfl
  · have hij := (hlost i hin hi).symm.trans (hlost j hjn hj)
    exact some.inj hij
  · rw [timedOut hj] at hlost
    cases hlost i hin hi
  · rw [timedOut hi] at hlost
    cases hlost j hjn hj
  · rfl

/-- **One step** keeps the account. -/
theorem Inv.step {a : SelectAction T} (hok : SelectAlone n timeout s a)
    (hs : s.step n t timeout a = some (s', e)) (hfair : SelectFair (e ++ log)) : Inv n timeout s' (e ++ log) := by
  cases a with
  | call =>
    simp only [EventSelect.step] at hs
    split at hs
    · cases hs
    · split at hs
      · next hb => exact h.slowPath hn hb (hok hb) hs
      · next hb =>
        have hfast := h.fastPath (by simpa using hb)
        rw [some.inj hs] at hfast
        exact hfast
  | eventDo i =>
    simp only [EventSelect.step] at hs
    split at hs
    · next hi =>
      cases hs
      exact h.eventDo hn hi hfair.1
    · cases hs
  | timer a =>
    simp only [EventSelect.step] at hs
    split at hs
    · obtain ⟨⟨c, ev⟩, hc, hs⟩ := map_eq_some_iff.mp hs
      cases hs
      exact h.timer hn hc
    · cases hs

end

theorem Inv.init (hn : n ≤ 7) (hs : (selectMachine n t timeout).init s) : Inv n timeout s [] := by
  obtain ⟨hbusy, hpc, hrecv, hevs⟩ := hs
  have hlow : ∀ i, i < n → hasBit s.call.sig.recv i = false := by
    intro i hi
    have hbit := congrArg (hasBit · i) hrecv
    simpa [hasBit_selectMask (by omega : n ≤ 8), hasBit_sigTimeout, hi, show i ≠ 7 by omega] using hbit
  have hun : s.Unmapped n := by
    refine ⟨hbusy, by rw [hpc]; nofun, fun i hi => ?_⟩
    rw [hevs i hi]
    exact ⟨rfl, rfl, hlow i hi⟩
  refine ⟨.inl hun, fun hp => absurd hp hun.2.1, Ledger.nil fun i hi => ?_, ?_⟩
  · rw [pending_of_unmapped hun hi, hevs i hi]
    exact hasBit_zero 6
  · rw [inFlight_of_idle hbusy]
    rfl

omit [DecidableEq T] in
theorem Inv.asleep_owed (h : Inv n timeout s log) (hn : n ≤ 7) (hpc : s.call.pc = .asleep) (i : ℕ) :
    owedSince i log = none := by
  have hmap : s.Mapped n := h.phase.resolve_left fun hun => hun.2.1 hpc
  refine h.ledger.owed_none (fun i hi => ?_) i
  have hbit := congrArg (hasBit · i) (h.asleep hpc).2
  rw [hasBit_and, hasBit_selectWait hn, decide_eq_true (.inl hi), Bool.and_true, hasBit_zero] at hbit
  rw [pending_of_mapped hmap hi, hbit]

/-- A step of the caller drops no event iff its wait does not find two signals. -/
theorem Inv.call_kept_iff (h : Inv n timeout s log) (hn : n ≤ 7) (hfair : SelectFair log)
    (hs : s.step n t timeout .call = some (s', e)) :
    (∀ i, (owedSince i (e ++ log)).isSome = true → s'.pending i = true) ↔ SelectAlone n timeout s .call := by
  constructor
  · intro hkept hb hpc
    simp only [EventSelect.step, hb, if_true] at hs
    split at hs
    · cases hs
    · exact h.alone_of_kept hn hb hpc hs hkept
  · intro halone i hi
    have hfair' : SelectFair (e ++ log) := by
      simp only [EventSelect.step] at hs
      split at hs
      · cases hs
      · split at hs
        · rcases slowPath_cases hs with ⟨res, -, -, rfl⟩ | ⟨c, -, -, rfl⟩
          · exact hfair
          · unfold settles
            split <;> exact hfair
        · have hfast : SelectFair ((s.fastPath n timeout).2 ++ log) := by
            unfold EventSelect.fastPath
            split <;> exact hfair
          rw [some.inj hs] at hfast
          exact hfast
    have hinv := h.step hn halone hs hfair'
    rcases Nat.lt_or_ge i n with hin | hin
    · rw [← hinv.ledger.owed i hin]
      exact hi
    · rw [hinv.ledger.bound i hin] at hi
      cases hi

end EventSelect

/-- **What `event_select` reports.** In every run in which the wait of the slow path never finds two of its signals
pending, and in which no event is triggered again while another one waits that was passed over for it:

- the calls have returned what they settled, but for the call in progress;
- each event that is reported was triggered since it was reported before;
- an event that was triggered is reported by one of the next `n` calls;
- a caller that sleeps has been told everything;
- the next step of the caller drops no event iff its wait does not find two signals pending. -/
theorem eventSelect_reports {n : ℕ} (hn : n ≤ 7) {t : T} {timeout : Ticks} {s : EventSelect T} {log : List SelectEvent}
    (h : (selectMachine n t timeout).Run (SelectAlone n timeout) s log) (hfair : SelectFair log) :
    selectPicks log = s.inFlight ++ selectReturns log ∧ PicksTriggered log ∧
      (∀ i picks, owedSince i log = some picks → picks.length < n) ∧
      (s.call.pc = .asleep → ∀ i, owedSince i log = none) ∧
      ∀ s' e, s.step n t timeout .call = some (s', e) →
        ((∀ i, (owedSince i (e ++ log)).isSome = true → s'.pending i = true) ↔ SelectAlone n timeout s .call) := by
  have hinv : SelectFair log → EventSelect.Inv n timeout s log := by
    refine h.invariant (I := fun s log => SelectFair log → EventSelect.Inv n timeout s log) ?_ ?_
    · exact fun s hs _ => EventSelect.Inv.init hn hs
    · exact fun s log a s' e ih hok hs hf => (ih hf.of_append).step hn hok hs hf
  have hi := hinv hfair
  exact ⟨hi.settled, hi.ledger.triggered, fun i l hl => hi.ledger.length_lt hl, hi.asleep_owed hn,
    fun s' e hs => hi.call_kept_iff hn hfair hs⟩

end

/-- A process that calls `event_select` for the first time. -/
def selectStart : EventSelect Unit where
  call := timeoutEntry
  evs _ := { action := .generic, sig := { recv := 0, wait := 0 }, sigBit := eventGenericSignal }
  busy := false

theorem selectStart_init (timeout : Ticks) : (selectMachine 2 () timeout).init selectStart :=
  ⟨rfl, rfl, rfl, fun _ _ => rfl⟩

/-- Event 0 happens before the first call, event 1 during the second one. -/
def oneByOne : Option (EventSelect Unit × List SelectEvent) :=
  (selectMachine 2 () 0).exec (SelectAlone 2 0) selectStart []
    [.eventDo 0, .call, .call, .call, .eventDo 1, .call, .call, .call]

def oneByOneLog : List SelectEvent :=
  [.returned (some 1), .picked (some 1), .did 1, .returned (some 0), .picked (some 0), .did 0]

theorem oneByOneLog_fair : SelectFair oneByOneLog := by
  refine ⟨fun i picks h => ?_, nofun, trivial⟩
  by_cases hi : 0 = i
  · simp [owedSince, hi] at h
  · simp [owedSince, hi] at h

theorem eventSelect_reports_oneByOne :
    ∃ s, oneByOne = some (s, oneByOneLog) ∧ PicksTriggered oneByOneLog ∧
      ∀ i picks, owedSince i oneByOneLog = some picks → picks.length < 2 := by
  have hsome : oneByOne = some (_, oneByOneLog) := rfl
  have hrun := (Machine.Run.init (selectStart_init 0)).exec hsome
  have hall := eventSelect_reports (by decide) hrun oneByOneLog_fair
  exact ⟨_, rfl, hall.2.1, hall.2.2.1⟩

/-- Both events happen while the caller sleeps: the call returns 1, the next one times out, and event 0 is dropped. -/
theorem simultaneous_event_dropped :
    ∃ s log, (selectMachine 2 () 1).Run (fun _ _ => True) s log ∧
      log = [.returned none, .picked none, .returned (some 1), .picked (some 1), .did 1, .did 0] ∧
      owedSince 0 log = some [none, some 1] ∧ s.pending 0 = false := by
  have hsome : (selectMachine 2 () 1).exec (fun _ _ => True) selectStart []
      [.call, .call, .call, .call, .eventDo 0, .eventDo 1, .call, .call, .call, .call, .call, .call, .call,
        .timer .tick, .timer .poll, .timer .poll, .call, .call, .call] = some _ := rfl
  exact ⟨_, _, (Machine.Run.init (selectStart_init 1)).exec hsome, rfl, rfl, rfl⟩

end Bertos
