import Bertos.Net.LwipMbox

/-!
# The mailboxes are reliable queues

The message nodes of the lwIP port are a pool shared by the mailboxes (`Bertos.Lib.NodePool`): every step of the code
is a step of the pool, or none (`MboxSys.pool_step`). So no node is lost or in two places, and what is fetched is what
was posted, in this order.

The poster signals only when it finds a process registered, and the fetcher registers after it has found nothing: a
message that comes in between is signalled by nobody (`mbox_strands`). Without this (`MboxUndisturbed`) there is a
poster on its way to the event whenever the fetcher waits and a message is there (`BoxOk`). The main result is
`mbox_reliable`.
-/

namespace Bertos

open Function MboxSys Option MboxAct MboxPc

section
variable {P M D : Type} [DecidableEq P] [DecidableEq M]

/-! ## The pool -/

/-- The node that a call has, with the mailbox that it was taken from until its data are read. -/
def MboxPc.node : MboxPc P M D → Option (MsgNode × Option M)
  | .postData _ _ msg | .postPut _ msg | .fetchFree msg => some (msg, none)
  | .fetchClear m msg | .fetchData m msg => some (msg, some m)
  | _ => none

/-- The mailbox that a call fetches from. -/
def MboxPc.fetches : MboxPc P M D → Option M
  | .fetchGet m _ | .fetchRegister m _ | .eventWait m | .sigWait m | .timedCheck m | .timedRegister m | .timedArm m
  | .timedWait m | .timedTaken m _ | .timeoutClear m | .fetchClear m _ | .tryGet m | .fetchData m _ => some m
  | _ => none

namespace MboxSys

variable {fetcher : M → P} {x x' : MboxSys P M D} {p : P} {m : M} {e : List (PoolEvent M D)}

/-- The nodes of the system, and where they are. -/
def pool (x : MboxSys P M D) : Pool P M MsgNode D :=
  ⟨x.free, fun m => (x.box m).queue, x.data, fun p => (x.pc p).node⟩

/-- Only the fetcher of a mailbox fetches from it. -/
def Own (fetcher : M → P) (x : MboxSys P M D) : Prop := ∀ p m, (x.pc p).fetches = some m → p = fetcher m

section
omit [DecidableEq M]

/-- A process that moves takes its node along. -/
theorem pool_setPc (pc : MboxPc P M D) :
    (x.setPc p pc).pool = { x.pool with held := Function.update x.pool.held p pc.node } := by
  show { x.pool with held := MboxPc.node ∘ update x.pc p pc } = _
  rw [comp_update]
  rfl

/-- A process that keeps its node leaves the pool alone. -/
theorem pool_setPc_same {pc : MboxPc P M D} (hpc : pc.node = (x.pc p).node) : (x.setPc p pc).pool = x.pool := by
  rw [pool_setPc, hpc]
  show { x.pool with held := update x.pool.held p (x.pool.held p) } = x.pool
  rw [update_eq_self]

end

section
omit [DecidableEq P]

/-- A change of a mailbox changes its queue in the pool. -/
theorem pool_setBox (b : LwipMbox P) :
    (x.setBox m b).pool = { x.pool with queue := Function.update x.pool.queue m b.queue } := by
  show { x.pool with queue := LwipMbox.queue ∘ update x.box m b } = _
  rw [comp_update]
  rfl

theorem pool_setBox_same {b : LwipMbox P} (hb : b.queue = (x.box m).queue) : (x.setBox m b).pool = x.pool := by
  rw [pool_setBox, hb]
  show { x.pool with queue := update x.pool.queue m (x.pool.queue m) } = x.pool
  rw [update_eq_self]

theorem pool_setSigProc (proc : Option P) : (x.setSigProc m proc).pool = x.pool := pool_setBox_same rfl

theorem pool_setSig (sig : Signal) : (x.setSig m sig).pool = x.pool := pool_setBox_same rfl

end

omit [DecidableEq M] in
theorem pool_setAsleep (b : Bool) : (x.setAsleep p b).pool = x.pool := rfl

omit [DecidableEq P] in
theorem pool_setArmed (b : Bool) : (x.setArmed m b).pool = x.pool := rfl

theorem sigPostSignal_pc (proc : Option P) (sigs : UInt8) : (x.sigPostSignal m proc sigs).pc = x.pc := by
  unfold sigPostSignal
  dsimp only
  split <;> rfl

/-- Signals move no node. -/
theorem pool_sigPostSignal (proc : Option P) (sigs : UInt8) : (x.sigPostSignal m proc sigs).pool = x.pool := by
  unfold sigPostSignal
  dsimp only
  split
  · rw [pool_setAsleep, pool_setSig]
  · rw [pool_setSig]

/-- Waiting for a signal moves no node. -/
theorem pool_sigWaitSignal {next : UInt8 → MboxPc P M D} (hnode : (x.pc p).node = none)
    (hnext : ∀ res, (next res).node = none) (sigs : UInt8) : (x.sigWaitSignal p m sigs next).pool = x.pool := by
  unfold sigWaitSignal
  split
  · next res sig _ =>
    have hpc : (next res).node = ((x.setSig m sig).pc p).node := (hnext res).trans hnode.symm
    exact (pool_setPc_same hpc).trans (pool_setSig sig)
  · rw [pool_setAsleep, pool_setSig]

theorem pool_timedTaken (hnode : (x.pc p).node = none) (res : UInt8) : (x.timedTaken p m res).pool = x.pool := by
  unfold timedTaken
  split
  · exact pool_setPc_same hnode.symm
  · rw [pool_setPc_same]
    · split
      · rw [pool_setArmed, pool_setSig]
      · rw [pool_setSig]
    · split <;> exact hnode.symm

/-- What a step makes of the pool. -/
def PoolTurn (fetcher : M → P) (x x' : MboxSys P M D) (e : List (PoolEvent M D)) : Prop :=
  x'.pool = x.pool ∧ e = [] ∨ PoolStep fetcher x.pool x'.pool e

/-- The place that `p` goes to, with no other process moved. -/
def GoesTo (x x' : MboxSys P M D) (p : P) (pc : MboxPc P M D) : Prop := ∀ y, x'.pc y = if y = p then pc else x.pc y

section
omit [DecidableEq M]

/-- `p` goes to `pc`, after a change that moves nobody. -/
theorem goesTo_setPc {z : MboxSys P M D} (hz : z.pc = x.pc) (pc : MboxPc P M D) : x.GoesTo (z.setPc p pc) p pc := by
  intro y
  rw [← hz]
  exact update_apply _ _ _ _

theorem goesTo_same (hz : x'.pc = x.pc) : x.GoesTo x' p (x.pc p) := by
  intro y
  rw [hz]
  split
  · next hy => rw [hy]
  · rfl

end

/-- `p` has made a step, and goes on with what it fetches from or with nothing. -/
def Turn (fetcher : M → P) (x x' : MboxSys P M D) (p : P) (e : List (PoolEvent M D)) : Prop :=
  PoolTurn fetcher x x' e ∧ ∃ pc, x.GoesTo x' p pc ∧ (pc.fetches = none ∨ pc.fetches = (x.pc p).fetches)

section
variable {z : MboxSys P M D} {pc : MboxPc P M D} (hzp : z.pc = x.pc)
    (hf : pc.fetches = none ∨ pc.fetches = (x.pc p).fetches)
include hzp hf

/-- A step that leaves the nodes where they are, with `z` the state before `p` goes on. -/
theorem Turn.same (hz : z.pool = x.pool) (hpc : pc.node = (x.pc p).node) : Turn fetcher x (z.setPc p pc) p [] :=
  ⟨.inl ⟨(pool_setPc_same (hzp ▸ hpc)).trans hz, rfl⟩, pc, goesTo_setPc hzp pc, hf⟩

/-- A step that moves a node. -/
theorem Turn.pool (hs : PoolStep fetcher x.pool (z.setPc p pc).pool e) : Turn fetcher x (z.setPc p pc) p e :=
  ⟨.inr hs, pc, goesTo_setPc hzp pc, hf⟩

end

/-- A step that moves neither a node nor a process. -/
theorem Turn.stay (hpc : x'.pc = x.pc) (hz : x'.pool = x.pool) : Turn fetcher x x' p [] :=
  ⟨.inl ⟨hz, rfl⟩, _, goesTo_same hpc, .inr rfl⟩

/-- **The code refines the pool.** -/
theorem resume_turn (hown : x.Own fetcher) (hs : x.resume p = some (x', e)) : Turn fetcher x x' p e := by
  have hheld : ∀ {pc}, x.pc p = pc → x.pool.held p = pc.node := fun hpc => congrArg node hpc
  have hfetch : ∀ {pc m}, x.pc p = pc → pc.fetches = some m → p = fetcher m := fun hpc => hpc ▸ hown p _
  unfold resume at hs
  split at hs
  case h_1 => cases hs
  case h_2 m d again hpc =>
    split at hs
    · cases hs
      split
      · exact .stay rfl rfl
      · exact .same rfl (.inl rfl) rfl (by rw [hpc]; rfl)
    · next msg r hfree =>
      cases hs
      refine .pool rfl (.inl rfl) ?_
      rw [pool_setPc]
      exact .alloc hfree (hheld hpc)
  case h_3 m d msg hpc =>
    cases hs
    refine .pool rfl (.inl rfl) ?_
    rw [pool_setPc_same (by rw [hpc]; rfl)]
    exact .write (hheld hpc) d
  case h_4 m msg hpc =>
    cases hs
    refine .pool rfl (.inl rfl) ?_
    rw [pool_setPc, pool_setBox]
    exact .put (hheld hpc) m
  case h_5 m hpc =>
    cases hs
    split <;> exact .same rfl (.inl rfl) rfl (by rw [hpc]; rfl)
  case h_6 m hpc =>
    cases hs
    exact .same rfl (.inl rfl) rfl (by rw [hpc]; rfl)
  case h_7 m proc hpc =>
    cases hs
    exact .same (sigPostSignal_pc proc _) (.inl rfl) (pool_sigPostSignal proc _) (by rw [hpc]; rfl)
  case h_8 m timed hpc | h_19 m hpc =>
    split at hs
    · cases hs
      exact .same rfl (by rw [hpc]; first | exact .inr rfl | exact .inl rfl) rfl (by rw [hpc]; rfl)
    · next msg r hqueue =>
      cases hs
      refine .pool rfl (.inr (by rw [hpc]; rfl)) ?_
      obtain rfl := hfetch hpc rfl
      rw [popQueue, pool_setPc, pool_setBox]
      exact .take hqueue (hheld hpc)
  case h_9 m timed hpc =>
    cases hs
    split <;> exact .same rfl (.inr (by rw [hpc]; rfl)) (pool_setSigProc _) (by rw [hpc]; rfl)
  case h_11 m hpc | h_15 m hpc =>
    cases hs
    refine ⟨.inl ⟨pool_sigWaitSignal (hheld hpc) (fun _ => rfl) _, rfl⟩, ?_⟩
    unfold sigWaitSignal
    split
    · exact ⟨_, goesTo_setPc rfl _, .inr (by rw [hpc]; rfl)⟩
    · exact ⟨_, goesTo_same rfl, .inr rfl⟩
  case h_12 m hpc =>
    cases hs
    split <;> exact .same rfl (.inr (by rw [hpc]; rfl)) (pool_setSig _) (by rw [hpc]; rfl)
  case h_14 m hpc =>
    cases hs
    exact .same rfl (.inr (by rw [hpc]; rfl)) (pool_setArmed _) (by rw [hpc]; rfl)
  case h_16 m res hpc =>
    cases hs
    refine ⟨.inl ⟨pool_timedTaken (hheld hpc) res, rfl⟩, ?_⟩
    unfold timedTaken
    split
    · exact ⟨_, goesTo_setPc rfl _, .inr (by rw [hpc]; rfl)⟩
    · refine ⟨_, goesTo_setPc ?_ _, .inr (by rw [hpc]; rfl)⟩
      split <;> rfl
  case h_17 m hpc =>
    cases hs
    exact .same rfl (.inl rfl) (pool_setSigProc _) (by rw [hpc]; rfl)
  case h_10 m hpc | h_13 m hpc | h_18 m msg hpc =>
    cases hs
    exact .same rfl (.inr (by rw [hpc]; rfl)) (pool_setSigProc _) (by rw [hpc]; rfl)
  case h_20 m msg hpc =>
    cases hs
    refine .pool rfl (.inl rfl) ?_
    obtain rfl := hfetch hpc rfl
    rw [pool_setPc]
    exact .get (hheld hpc)
  case h_21 msg hpc =>
    cases hs
    refine .pool rfl (.inl rfl) ?_
    rw [pool_setPc]
    exact .release (hheld hpc)

/-- The first place of a call. -/
def Enters (fetcher : M → P) (p : P) (pc : MboxPc P M D) : Prop :=
  (∃ m d again, pc = .postAlloc m d again) ∨ ∃ m, p = fetcher m ∧ (pc = .tryGet m ∨ ∃ timed, pc = .fetchGet m timed)

/-- **What a step is**: a call begins, a call goes on, or a timer expires. -/
theorem step_cases {a : MboxAct P M D} (hs : x.step fetcher a = some (x', e)) :
    (∃ p pc, x.pc p = .user ∧ Enters fetcher p pc ∧ x' = x.setPc p pc ∧ e = []) ∨
      (∃ p, a = .advance p ∧ x.asleep p = false ∧ x.resume p = some (x', e)) ∨
      ∃ m proc, x' = (x.setArmed m false).sigPostSignal m proc sigTimeout ∧ e = [] := by
  have hbegin : ∀ {p pc}, Enters fetcher p pc → (if x.idle p then some (x.setPc p pc, []) else none) = some (x', e) →
      ∃ p pc, x.pc p = .user ∧ Enters fetcher p pc ∧ x' = x.setPc p pc ∧ e = [] := by
    intro p pc hpc hs
    obtain ⟨hp, hs⟩ := ite_none_right_eq_some.mp hs
    cases hs
    unfold idle at hp
    split at hp
    · exact ⟨p, pc, ‹_›, hpc, rfl, rfl⟩
    · cases hp
  cases a with
  | post p m d again => exact .inl (hbegin (.inl ⟨m, d, again, rfl⟩) hs)
  | fetch m timed => exact .inl (hbegin (.inr ⟨m, rfl, .inr ⟨timed, rfl⟩⟩) hs)
  | tryfetch m => exact .inl (hbegin (.inr ⟨m, rfl, .inl rfl⟩) hs)
  | advance p =>
    obtain ⟨hp, hs⟩ := ite_none_left_eq_some.mp hs
    exact .inr (.inl ⟨p, rfl, Bool.eq_false_of_not_eq_true hp, hs⟩)
  | timer m =>
    obtain ⟨-, hs⟩ := ite_none_right_eq_some.mp hs
    cases hs
    exact .inr (.inr ⟨m, _, rfl, rfl⟩)

section
variable (hown : x.Own fetcher) {a : MboxAct P M D} (hs : x.step fetcher a = some (x', e))
include hown hs

/-- Only the fetcher enters the code that fetches. -/
theorem Own.step : x'.Own fetcher := by
  have hgo : ∀ p pc, x.GoesTo x' p pc → (∀ m, pc.fetches = some m → p = fetcher m) → x'.Own fetcher := by
    intro p pc hgo hpc y m hy
    rw [hgo] at hy
    split at hy
    · next hyp => exact hyp.trans (hpc m hy)
    · exact hown y m hy
  obtain ⟨p, pc, -, hpc, rfl, -⟩ | ⟨p, -, -, hs⟩ | ⟨m, proc, rfl, -⟩ := step_cases hs
  · refine hgo p pc (goesTo_setPc rfl _) fun m hm => ?_
    obtain ⟨_, _, _, rfl⟩ | ⟨_, rfl, rfl | ⟨_, rfl⟩⟩ := hpc <;> cases hm
    all_goals rfl
  · obtain ⟨pc, hgoes, hpc⟩ := (resume_turn hown hs).2
    refine hgo p pc hgoes fun m hm => ?_
    obtain hpc | hpc := hpc
    · rw [hpc] at hm
      cases hm
    · exact hown p m (hpc ▸ hm)
  · intro y m' hy
    rw [sigPostSignal_pc] at hy
    exact hown y m' hy

/-- **Every step of the system** is a step of the pool, or leaves it as it is. -/
theorem pool_step : PoolTurn fetcher x x' e := by
  obtain ⟨p, pc, hp, hpc, rfl, rfl⟩ | ⟨p, -, -, hs⟩ | ⟨m, proc, rfl, rfl⟩ := step_cases hs
  · refine .inl ⟨pool_setPc_same ?_, rfl⟩
    rw [hp]
    obtain ⟨_, _, _, rfl⟩ | ⟨_, -, rfl | ⟨_, rfl⟩⟩ := hpc <;> rfl
  · exact (resume_turn hown hs).1
  · exact .inl ⟨pool_sigPostSignal _ _, rfl⟩

end

/-- The pool is in order along every run. -/
theorem pool_run {ok : MboxSys P M D → MboxAct P M D → Prop} {log : List (PoolEvent M D)}
    (h : (mboxMachine D fetcher).Run ok x log) : x.Own fetcher ∧ PoolInv fetcher x.pool log := by
  refine h.invariant (I := fun x log => x.Own fetcher ∧ PoolInv fetcher x.pool log) ?_ ?_
  · rintro x ⟨data, rfl⟩
    refine ⟨(fun p m hm => by cases hm), PoolInv.init ?_ fun msg => ?_⟩
    · exact List.nodup_reverse.mpr (List.nodup_finRange _)
    · exact List.mem_reverse.mpr (List.mem_finRange msg)
  · rintro x log a x' e ⟨hown, hpool⟩ - hs
    refine ⟨hown.step hs, ?_⟩
    obtain ⟨hsame, rfl⟩ | hstep := pool_step hown hs
    · rw [hsame]
      exact hpool
    · exact hpool.step hstep

end MboxSys

/-! ## The event -/

/-- The process is about to raise the event of `m`, and will do so for the fetcher. -/
def MboxSys.Raises (fetcher : M → P) (x : MboxSys P M D) (p : P) (m : M) : Prop :=
  (x.pc p = .postTest m ∨ x.pc p = .postDo m) ∧ (x.box m).sigProc = some (fetcher m) ∨
    x.pc p = .postSignal m (some (fetcher m))

/-- Posted, and on the way to the event of the mailbox. -/
def MboxPc.raises : MboxPc P M D → Option M
  | .postTest m | .postDo m | .postSignal m _ => some m
  | _ => none

/-- On the way to wait for a message without a timeout, having found none. -/
def MboxPc.waits : MboxPc P M D → Option M
  | .fetchRegister m false | .eventWait m | .sigWait m => some m
  | _ => none

section
omit [DecidableEq P] [DecidableEq M]

/-- The three places on the way to the event. -/
theorem MboxPc.raises_cases {pc : MboxPc P M D} {m : M} (h : pc.raises = some m) :
    pc = .postTest m ∨ pc = .postDo m ∨ ∃ q, pc = .postSignal m q := by
  unfold raises at h
  split at h <;> cases h <;> simp

/-- The three places on the way to wait. -/
theorem MboxPc.waits_cases {pc : MboxPc P M D} {m : M} (h : pc.waits = some m) :
    pc = .fetchRegister m false ∨ pc = .eventWait m ∨ pc = .sigWait m := by
  unfold waits at h
  split at h <;> cases h <;> simp

end

/-- **The event of a mailbox**: somebody raises it when a message is there that the fetcher does not know of. -/
structure BoxOk (fetcher : M → P) (x : MboxSys P M D) (m : M) : Prop where
  proc : (x.box m).sigProc = none ∨ (x.box m).sigProc = some (fetcher m)
  testing : ∀ p, x.pc p = .postDo m → (x.box m).sigProc = some (fetcher m)
  signalling : ∀ p q, x.pc p = .postSignal m q → q = some (fetcher m)
  registered : x.pc (fetcher m) = .eventWait m ∨ x.pc (fetcher m) = .sigWait m → (x.box m).sigProc = some (fetcher m)
  covered : (x.pc (fetcher m)).waits = some m → (x.box m).queue ≠ [] →
    (x.box m).sig.recv &&& eventGenericSignal ≠ 0 ∨ ∃ p, (x.pc p).raises = some m
  blocked : x.asleep (fetcher m) = true → x.pc (fetcher m) = .sigWait m →
    (x.box m).sig.wait = eventGenericSignal ∧ (x.box m).sig.recv &&& eventGenericSignal = 0

/-- `sig_proc` stays, or the fetcher sets it, or clears it while no poster has just found it. -/
def SigProcTurn (fetcher : M → P) (x x' : MboxSys P M D) (m : M) : Prop :=
  (x'.box m).sigProc = (x.box m).sigProc ∨ (x'.box m).sigProc = some (fetcher m) ∨
    (x'.box m).sigProc = none ∧ ∀ q, x.pc q ≠ .postDo m

section Event

variable {fetcher : M → P} {x x' : MboxSys P M D} {p : P} {m : M} {pc : MboxPc P M D}

section
omit [DecidableEq M]

theorem MboxSys.GoesTo.of_ne (hgo : x.GoesTo x' p pc) {y : P} (hy : y ≠ p) : x'.pc y = x.pc y := by
  rw [hgo, if_neg hy]

theorem MboxSys.GoesTo.self (hgo : x.GoesTo x' p pc) : x'.pc p = pc := by
  rw [hgo, if_pos rfl]

end

section
variable (h : BoxOk fetcher x m)
include h

section
omit [DecidableEq M]

/-- What a step of a process that does not wait then owes to the event of `m`. -/
theorem BoxOk.posterTurn (hgo : x.GoesTo x' p pc) (hproc : (x'.box m).sigProc = (x.box m).sigProc)
    (hw : pc.waits ≠ some m) (htest : pc = .postDo m → (x.box m).sigProc = some (fetcher m))
    (hsignal : ∀ q, pc = .postSignal m q → q = some (fetcher m))
    (hcover : fetcher m ≠ p → (x.pc (fetcher m)).waits = some m → (x'.box m).queue ≠ [] →
      (x'.box m).sig.recv &&& eventGenericSignal ≠ 0 ∨ ∃ q, (x'.pc q).raises = some m)
    (hblock : fetcher m ≠ p → x'.asleep (fetcher m) = true → x.pc (fetcher m) = .sigWait m → (x'.box m).sig.wait =
      eventGenericSignal ∧ (x'.box m).sig.recv &&& eventGenericSignal = 0) :
    BoxOk fetcher x' m := by
  have hwait : ∀ pc', x'.pc (fetcher m) = pc' → pc'.waits = some m → fetcher m ≠ p ∧ x.pc (fetcher m) = pc' := by
    intro pc' hpc' hwaits
    have hne : fetcher m ≠ p := fun he => by
      rw [he, hgo.self] at hpc'
      exact hw (hpc' ▸ hwaits)
    exact ⟨hne, (hgo.of_ne hne).symm.trans hpc'⟩
  refine ⟨hproc ▸ h.proc, fun y hy => ?_, fun y q hy => ?_, fun hy => ?_, fun hy hq => ?_, fun ha hy => ?_⟩
  · rw [hproc]
    by_cases hyp : y = p
    · exact htest (hgo.self.symm.trans (hyp ▸ hy))
    · exact h.testing y ((hgo.of_ne hyp).symm.trans hy)
  · by_cases hyp : y = p
    · exact hsignal q (hgo.self.symm.trans (hyp ▸ hy))
    · exact h.signalling y q ((hgo.of_ne hyp).symm.trans hy)
  · rw [hproc]
    exact h.registered (hy.imp (fun hy => (hwait _ hy rfl).2) fun hy => (hwait _ hy rfl).2)
  · obtain ⟨hne, hsame⟩ := hwait _ rfl hy
    exact hcover hne (hsame ▸ hy) hq
  · obtain ⟨hne, hsame⟩ := hwait _ hy rfl
    exact hblock hne ha hsame

/-- A step that has nothing to do with `m`. -/
theorem BoxOk.frame (hgo : x.GoesTo x' p pc) (hbox : x'.box m = x.box m) (hr : (x.pc p).raises ≠ some m)
    (hr' : pc.raises ≠ some m) (hw : pc.waits ≠ some m)
      (hasleep : ∀ y, y ≠ p → x'.asleep y = true → x.asleep y = true) :
    BoxOk fetcher x' m := by
  refine h.posterTurn hgo (by rw [hbox]) hw (fun he => absurd (by rw [he]; rfl) hr')
    (fun q he => absurd (by rw [he]; rfl) hr') (fun _ hy hq => ?_) fun hne ha hy => ?_
  · rw [hbox] at hq ⊢
    refine (h.covered hy hq).imp_right fun ⟨q, hq⟩ => ⟨q, ?_⟩
    have hqp : q ≠ p := fun he => hr (he ▸ hq)
    rw [hgo.of_ne hqp]
    exact hq
  · rw [hbox]
    exact h.blocked (hasleep _ hne ha) hy

/-- What a step of the fetcher owes to the event of `m`. -/
theorem BoxOk.fetcherTurn (hgo : x.GoesTo x' (fetcher m) pc) (hr' : pc.raises ≠ some m)
    (hproc : SigProcTurn fetcher x x' m)
    (hreg : pc = .eventWait m ∨ pc = .sigWait m → (x'.box m).sigProc = some (fetcher m))
    (hcover : pc.waits = some m → (x'.box m).queue ≠ [] → (x'.box m).sig.recv &&& eventGenericSignal ≠ 0 ∨
      ∃ q, (x'.pc q).raises = some m)
    (hblock : x'.asleep (fetcher m) = true → pc = .sigWait m → (x'.box m).sig.wait = eventGenericSignal ∧
      (x'.box m).sig.recv &&& eventGenericSignal = 0) :
    BoxOk fetcher x' m := by
  have hraise : ∀ y pc', x'.pc y = pc' → pc'.raises = some m → x.pc y = pc' := by
    intro y pc' hy hraises
    have hne : y ≠ fetcher m := fun he => by
      rw [he, hgo.self] at hy
      exact hr' (hy ▸ hraises)
    exact (hgo.of_ne hne).symm.trans hy
  refine ⟨?_, fun y hy => ?_, fun y q hy => h.signalling y q (hraise y _ hy rfl), fun hy => hreg (hgo.self ▸ hy),
    fun hy => hcover (hgo.self ▸ hy), fun ha hy => hblock ha (hgo.self.symm.trans hy)⟩
  · obtain hp | hp | hp := hproc
    · exact hp ▸ h.proc
    · exact .inr hp
    · exact .inl hp.1
  · have hold := hraise y _ hy rfl
    obtain hp | hp | hp := hproc
    · exact hp.trans (h.testing y hold)
    · exact hp
    · exact absurd hold (hp.2 y)

/-- A turn of the fetcher that does not lead to waiting without a timeout. -/
theorem BoxOk.fetcherLeaves (hgo : x.GoesTo x' (fetcher m) pc) (hr' : pc.raises ≠ some m) (hw : pc.waits ≠ some m)
    (hproc : SigProcTurn fetcher x x' m) : BoxOk fetcher x' m :=
  h.fetcherTurn hgo hr' hproc (fun hy => absurd (hy.elim (fun h => h ▸ rfl) fun h => h ▸ rfl) hw)
    (fun hy => absurd hy hw)
    fun _ hy => absurd (hy ▸ rfl) hw

/-- A fetcher on its way to wait registers, and the queue and the signals stay. -/
theorem BoxOk.fetcherWaits (hgo : x.GoesTo x' (fetcher m) pc) (hr : (x.pc (fetcher m)).raises ≠ some m)
    (hr' : pc.raises ≠ some m) (hw : (x.pc (fetcher m)).waits = some m) (hproc : (x'.box m).sigProc = some (fetcher m))
    (hqueue : (x'.box m).queue = (x.box m).queue) (hrecv : (x'.box m).sig.recv = (x.box m).sig.recv)
    (hblock : x'.asleep (fetcher m) = true → pc = .sigWait m → (x'.box m).sig.wait = eventGenericSignal ∧
      (x'.box m).sig.recv &&& eventGenericSignal = 0) :
    BoxOk fetcher x' m := by
  refine h.fetcherTurn hgo hr' (.inr (.inl hproc)) (fun _ => hproc) (fun _ hq => ?_) hblock
  rw [hqueue] at hq
  rw [hrecv]
  refine (h.covered hw hq).imp_right fun ⟨q, hq⟩ => ⟨q, ?_⟩
  have hqp : q ≠ fetcher m := fun he => hr (he ▸ hq)
  rw [hgo.of_ne hqp]
  exact hq

end

end

/-- A step that concerns `m` only keeps all events in order if it does so for `m`. -/
theorem BoxOk.turn (h : ∀ m, BoxOk fetcher x m) (hgo : x.GoesTo x' p pc) (hbox : ∀ m', m' ≠ m → x'.box m' = x.box m')
    (hr : (x.pc p).raises = none ∨ (x.pc p).raises = some m) (hr' : pc.raises = none ∨ pc.raises = some m)
    (hw : pc.waits = none ∨ pc.waits = some m) (hasleep : ∀ y, y ≠ p → x'.asleep y = true → x.asleep y = true)
    (hm : BoxOk fetcher x' m) (m' : M) : BoxOk fetcher x' m' := by
  by_cases he : m' = m
  · exact he ▸ hm
  · have hne : ∀ {o : Option M}, o = none ∨ o = some m → o ≠ some m' := by
      rintro _ (rfl | rfl) h
      · cases h
      · exact he (some.inj h).symm
    exact (h m').frame hgo (hbox m' he) (hne hr) (hne hr') (hne hw) hasleep

omit [DecidableEq M] in
/-- The state is left as `z`, and `p` goes on to `pc`: nothing that the events depend on changes. -/
theorem BoxOk.quiet {z : MboxSys P M D} (h : ∀ m, BoxOk fetcher x m) (hz : z.pc = x.pc) (hbox : z.box = x.box)
    (hasleep : z.asleep = x.asleep) (hr : (x.pc p).raises = none) (hr' : pc.raises = none) (hw : pc.waits = none) :
    BoxOk fetcher (z.setPc p pc) m :=
  (h m).frame (goesTo_setPc hz pc) (congrFun hbox m) (by rw [hr]; simp) (by rw [hr']; simp) (by rw [hw]; simp)
    fun _ _ ha => hasleep ▸ ha

/-- A turn of the fetcher that does not lead to waiting without a timeout, for all mailboxes. -/
theorem BoxOk.leaves (h : ∀ m, BoxOk fetcher x m) (hgo : x.GoesTo x' (fetcher m) pc)
    (hbox : ∀ m', m' ≠ m → x'.box m' = x.box m') (hr : (x.pc (fetcher m)).raises = none) (hr' : pc.raises = none)
    (hw : pc.waits = none) (hasleep : ∀ y, y ≠ fetcher m → x'.asleep y = true → x.asleep y = true)
    (hproc : SigProcTurn fetcher x x' m) (m' : M) : BoxOk fetcher x' m' := by
  refine BoxOk.turn h hgo hbox (.inl hr) (.inl hr') (.inl hw) hasleep ?_ m'
  exact (h m).fetcherLeaves hgo (by rw [hr']; simp) (by rw [hw]; simp) hproc

/-- The fetcher changes its mailbox, and goes on to `pc`. -/
theorem BoxOk.leavesTo {z : MboxSys P M D} {b : LwipMbox P} {m' : M} (h : ∀ m, BoxOk fetcher x m) (hz : z.pc = x.pc)
    (hasleep : z.asleep = x.asleep) (hbox : z.box = Function.update x.box m b)
    (hr : (x.pc (fetcher m)).raises = none) (hr' : pc.raises = none) (hw : pc.waits = none)
    (hproc : b.sigProc = (x.box m).sigProc ∨ b.sigProc = some (fetcher m) ∨ b.sigProc = none ∧
      ∀ q, x.pc q ≠ .postDo m) :
    BoxOk fetcher (z.setPc (fetcher m) pc) m' := by
  refine BoxOk.leaves h (goesTo_setPc hz pc) (fun m' hm => ?_) hr hr' hw (fun _ _ ha => hasleep ▸ ha) ?_ m'
  · exact (congrFun hbox m').trans (update_of_ne hm _ _)
  · have hb : (z.setPc (fetcher m) pc).box m = b := (congrFun hbox m).trans (update_self ..)
    unfold SigProcTurn
    rwa [hb]

/-- A turn of a poster, which leaves the state as `z` and is on its way to the event afterwards. -/
theorem BoxOk.posts {z : MboxSys P M D} {m' : M} (h : ∀ m, BoxOk fetcher x m) (hz : z.pc = x.pc)
    (hasleep : z.asleep = x.asleep) (hbox : ∀ m', m' ≠ m → z.box m' = x.box m')
    (hproc : (z.box m).sigProc = (x.box m).sigProc) (hsig : (z.box m).sig = (x.box m).sig)
    (hr : (x.pc p).raises = none ∨ (x.pc p).raises = some m) (hr' : pc.raises = some m) (hw : pc.waits = none)
    (htest : pc = .postDo m → (x.box m).sigProc = some (fetcher m))
    (hsignal : ∀ q, pc = .postSignal m q → q = some (fetcher m)) : BoxOk fetcher (z.setPc p pc) m' := by
  have hgo : x.GoesTo (z.setPc p pc) p pc := goesTo_setPc hz pc
  refine BoxOk.turn h hgo hbox hr (.inr hr') (.inl hw) (fun _ _ ha => hasleep ▸ ha) ?_ m'
  refine (h m).posterTurn hgo hproc (by rw [hw]; simp) htest hsignal (fun _ _ _ => .inr ⟨p, by rw [hgo.self, hr']⟩)
    fun _ ha hy => ?_
  have hold := (h m).blocked (hasleep ▸ ha) hy
  rwa [← hsig] at hold

/-- **Posting** keeps the event in order. -/
theorem BoxOk.put (h : ∀ m, BoxOk fetcher x m) {msg : MsgNode} (hpc : x.pc p = .postPut m msg) (m' : M) :
    BoxOk fetcher ((x.setBox m { x.box m with queue := (x.box m).queue ++ [msg] }).setPc p (.postTest m)) m' := by
  have hbox : (x.setBox m { x.box m with queue := (x.box m).queue ++ [msg] }).box m =
      { x.box m with queue := (x.box m).queue ++ [msg] } := update_self ..
  exact BoxOk.posts h rfl rfl (fun _ hm => update_of_ne hm _ _) (by rw [hbox]) (by rw [hbox])
    (.inl (by rw [hpc]; rfl)) rfl rfl (by simp) (by simp)

/-- **The test of `sig_proc`**: not while the fetcher is about to register. -/
theorem BoxOk.test (h : ∀ m, BoxOk fetcher x m) (hpc : x.pc p = .postTest m)
    (hok : x.pc (fetcher m) = .fetchRegister m false → (x.box m).sigProc ≠ none) (m' : M) :
    BoxOk fetcher (x.setPc p (if (x.box m).sigProc.isSome then .postDo m else .user)) m' := by
  split
  · next hsome =>
    have hproc : (x.box m).sigProc = some (fetcher m) :=
      (h m).proc.resolve_left fun hn => by rw [hn] at hsome; cases hsome
    exact BoxOk.posts h rfl rfl (fun _ _ => rfl) rfl rfl (.inr (by rw [hpc]; rfl)) rfl rfl (fun _ => hproc) (by simp)
  · next hnone =>
    have hgo : x.GoesTo (x.setPc p .user) p .user := goesTo_setPc rfl _
    have hproc : (x.box m).sigProc = none := by simpa using hnone
    refine BoxOk.turn h hgo (fun _ _ => rfl) (.inr (by rw [hpc]; rfl)) (.inl rfl) (.inl rfl) (fun _ _ ha => ha) ?_ m'
    refine (h m).posterTurn hgo rfl (by simp [waits]) (by simp) (by simp) (fun _ hy _ => ?_)
      fun _ ha hy => (h m).blocked ha hy
    -- nobody waits: the fetcher would be registered, or about to be
    have hreg := (h m).registered
    rw [hproc] at hreg
    obtain hf | hf | hf := waits_cases hy
    · exact absurd hproc (hok hf)
    · cases hreg (.inl hf)
    · cases hreg (.inr hf)

/-- `event_hook_generic_signal` reads `sig_proc`. -/
theorem BoxOk.hook (h : ∀ m, BoxOk fetcher x m) (hpc : x.pc p = .postDo m) (m' : M) :
    BoxOk fetcher (x.setPc p (.postSignal m (x.box m).sigProc)) m' := by
  refine BoxOk.posts h rfl rfl (fun _ _ => rfl) rfl rfl (.inr (by rw [hpc]; rfl)) rfl rfl (by simp) fun q hq => ?_
  cases hq
  exact (h m).testing p hpc

theorem and_eventGenericSignal_or (r : UInt8) : (r ||| eventGenericSignal) &&& eventGenericSignal ≠ 0 := by
  rw [and_eventGenericSignal_ne_zero, hasBit_or, hasBit_eventGenericSignal]
  simp

theorem or_sigTimeout_and_ne_zero (r : UInt8) :
    (r ||| sigTimeout) &&& eventGenericSignal ≠ 0 ↔ r &&& eventGenericSignal ≠ 0 := by
  have hbit : hasBit sigTimeout 6 = false := by decide
  rw [and_eventGenericSignal_ne_zero, and_eventGenericSignal_ne_zero, hasBit_or, hbit, Bool.or_false]

/-- A signal changes the event of one mailbox. -/
theorem MboxSys.sigPostSignal_box (proc : Option P) (sigs : UInt8) (m' : M) :
    (x.sigPostSignal m proc sigs).box m' =
      if m' = m then { x.box m with sig := ((x.box m).sig.signal sigs).2 } else x.box m' := by
  unfold sigPostSignal
  dsimp only
  split <;> exact update_apply _ _ _ _

/-- A signal puts nobody to sleep, and wakes the process it is for. -/
theorem MboxSys.sigPostSignal_asleep {proc : Option P} {sigs : UInt8} {y : P}
    (ha : (x.sigPostSignal m proc sigs).asleep y = true) :
    x.asleep y = true ∧ (((x.box m).sig.signal sigs).1 = true → proc ≠ some y) := by
  unfold sigPostSignal at ha
  dsimp only at ha
  split at ha
  · next p hwake =>
    by_cases hy : y = p
    · rw [hy] at ha
      exact absurd ha (by simp [setAsleep])
    · refine ⟨?_, fun _ he => hy (some.inj he).symm⟩
      simpa [setAsleep, setSig, setBox, hy] using ha
  · next hno => exact ⟨ha, fun hw he => hno y hw he⟩

theorem MboxSys.asleep_of_ne {sig : Signal} {y : P} (hy : y ≠ p)
    (ha : ((x.setSig m sig).setAsleep p true).asleep y = true) : x.asleep y = true := by
  simpa [setAsleep, setSig, setBox, hy] using ha

section
variable (h : ∀ m, BoxOk fetcher x m)
include h

/-- **`__sig_signal` by a poster**: the fetcher is woken, or finds the event when it gets to it. -/
theorem BoxOk.signal {proc : Option P} (hpc : x.pc p = .postSignal m proc) (m' : M) :
    BoxOk fetcher ((x.sigPostSignal m proc eventGenericSignal).setPc p .user) m' := by
  have hproc : proc = some (fetcher m) := (h m).signalling p proc hpc
  have hgo : x.GoesTo ((x.sigPostSignal m proc eventGenericSignal).setPc p .user) p .user :=
    goesTo_setPc (sigPostSignal_pc proc _) _
  have hbox : ∀ m', ((x.sigPostSignal m proc eventGenericSignal).setPc p .user).box m' =
      if m' = m then { x.box m with sig := ((x.box m).sig.signal eventGenericSignal).2 } else x.box m' :=
    sigPostSignal_box proc _
  have hrecv : ((x.box m).sig.signal eventGenericSignal).2.recv = (x.box m).sig.recv ||| eventGenericSignal := by
    unfold Signal.signal
    split <;> rfl
  refine BoxOk.turn h hgo (fun m' hm => by rw [hbox, if_neg hm]) (.inr (by rw [hpc]; rfl)) (.inl rfl) (.inl rfl)
    (fun y _ ha => (sigPostSignal_asleep ha).1) ?_ m'
  refine (h m).posterTurn hgo (by rw [hbox, if_pos rfl]) (by simp [waits]) (by simp) (by simp) (fun _ _ _ => ?_)
    fun _ ha hy => ?_
  · rw [hbox, if_pos rfl, hrecv]
    exact .inl (and_eventGenericSignal_or _)
  · obtain ⟨ha, hwake⟩ := sigPostSignal_asleep ha
    refine absurd hproc (hwake ?_)
    unfold Signal.signal
    rw [((h m).blocked ha hy).1, if_pos (and_eventGenericSignal_or _)]

/-- **The timer** raises `SIG_TIMEOUT`, which no fetcher without a timeout waits for. -/
theorem BoxOk.timer (proc : Option P) (m' : M) :
    BoxOk fetcher ((x.setArmed m false).sigPostSignal m proc sigTimeout) m' := by
  have hpc : ((x.setArmed m false).sigPostSignal m proc sigTimeout).pc = x.pc := sigPostSignal_pc proc _
  have hbox : ∀ m', ((x.setArmed m false).sigPostSignal m proc sigTimeout).box m' =
      if m' = m then { x.box m with sig := ((x.box m).sig.signal sigTimeout).2 } else x.box m' :=
    @sigPostSignal_box P M D _ _ (x.setArmed m false) m proc sigTimeout
  have hasleep : ∀ y, ((x.setArmed m false).sigPostSignal m proc sigTimeout).asleep y = true → x.asleep y = true :=
    fun y ha => (sigPostSignal_asleep ha).1
  have hrecv : ((x.box m).sig.signal sigTimeout).2.recv = (x.box m).sig.recv ||| sigTimeout := by
    unfold Signal.signal
    split <;> rfl
  obtain ⟨sig, hb, hsame, hstays⟩ : ∃ sig : Signal,
      ((x.setArmed m false).sigPostSignal m proc sigTimeout).box m' = { x.box m' with sig := sig } ∧
        (sig.recv &&& eventGenericSignal ≠ 0 ↔ (x.box m').sig.recv &&& eventGenericSignal ≠ 0) ∧
        ((x.box m').sig.wait = eventGenericSignal → (x.box m').sig.recv &&& eventGenericSignal = 0 →
          sig.wait = eventGenericSignal) := by
    by_cases hm : m' = m
    · subst hm
      refine ⟨_, by rw [hbox, if_pos rfl], by rw [hrecv, or_sigTimeout_and_ne_zero], fun hwait hzero => ?_⟩
      unfold Signal.signal
      rw [hwait, if_neg fun hne => (or_sigTimeout_and_ne_zero _).mp hne hzero]
    · exact ⟨_, by rw [hbox, if_neg hm], .rfl, fun hwait _ => hwait⟩
  refine ⟨hb ▸ (h m').proc, fun p hp => hb ▸ (h m').testing p (hpc ▸ hp), fun p q hp => (h m').signalling p q
    (hpc ▸ hp), fun hp => hb ▸ (h m').registered (hpc ▸ hp), fun hw hq => ?_, fun ha hp => ?_⟩
  · rw [hb] at hq ⊢
    rw [hsame, hpc]
    exact (h m').covered (hpc ▸ hw) hq
  · obtain ⟨hwait, hzero⟩ := (h m').blocked (hasleep _ ha) (hpc ▸ hp)
    rw [hb]
    exact ⟨hstays hwait hzero, Classical.not_not.mp fun hne => hsame.mp hne hzero⟩

/-- **`sig_waitSignal` in `event_wait`.** -/
theorem BoxOk.wait (hpc : x.pc (fetcher m) = .sigWait m) (m' : M) :
    BoxOk fetcher (x.sigWaitSignal (fetcher m) m eventGenericSignal fun _ => .fetchGet m false) m' := by
  have hraises : (x.pc (fetcher m)).raises = none := by rw [hpc]; rfl
  have hreg := (h m).registered (.inr hpc)
  unfold sigWaitSignal
  split
  · next res sig hturn =>
    exact BoxOk.leavesTo h rfl rfl rfl hraises rfl rfl (.inl rfl)
  · next sig hturn =>
    have hgo : x.GoesTo ((x.setSig m sig).setAsleep (fetcher m) true) (fetcher m) (.sigWait m) :=
      hpc ▸ goesTo_same rfl
    have hbox : ((x.setSig m sig).setAsleep (fetcher m) true).box m = { x.box m with sig := sig } :=
      update_self ..
    obtain ⟨hzero, hsig⟩ : (x.box m).sig.recv &&& eventGenericSignal = 0 ∧
        { (x.box m).sig with wait := eventGenericSignal } = sig := by
      unfold Signal.waitTurn at hturn
      split at hturn
      · cases hturn
      · next hz => exact ⟨Classical.not_not.mp hz, congrArg Prod.snd hturn⟩
    refine BoxOk.turn h hgo (fun _ hm => update_of_ne hm _ _) (.inl hraises) (.inl rfl) (.inr rfl)
      (fun _ => asleep_of_ne) ?_ m'
    refine (h m).fetcherWaits hgo (by rw [hraises]; simp) (by simp [raises]) (by rw [hpc]; rfl) ?_ ?_ ?_ fun _ _ => ?_
    all_goals rw [hbox, ← hsig]
    · exact hreg
    · exact ⟨rfl, hzero⟩

/-- `sig_waitSignal` in `sig_waitTimeoutSignal`. -/
theorem BoxOk.timedWait (hpc : x.pc (fetcher m) = .timedWait m) (m' : M) :
    BoxOk fetcher (x.sigWaitSignal (fetcher m) m (sigTimeout ||| eventGenericSignal) fun res => .timedTaken m res)
      m' := by
  have hraises : (x.pc (fetcher m)).raises = none := by rw [hpc]; rfl
  unfold sigWaitSignal
  split
  · next res sig _ =>
    exact BoxOk.leavesTo h rfl rfl rfl hraises rfl rfl (.inl rfl)
  · next sig _ =>
    have hgo : x.GoesTo ((x.setSig m sig).setAsleep (fetcher m) true) (fetcher m) (x.pc (fetcher m)) :=
      goesTo_same rfl
    have hbox : ((x.setSig m sig).setAsleep (fetcher m) true).box m = { x.box m with sig := sig } :=
      update_self ..
    exact BoxOk.leaves h hgo (fun _ hm => update_of_ne hm _ _) hraises hraises (by rw [hpc]; rfl)
      (fun _ => asleep_of_ne)
      (.inl (by rw [hbox])) m'

theorem BoxOk.timedTaken {res : UInt8} (hpc : x.pc (fetcher m) = .timedTaken m res) (m' : M) :
    BoxOk fetcher (x.timedTaken (fetcher m) m res) m' := by
  have hraises : (x.pc (fetcher m)).raises = none := by rw [hpc]; rfl
  unfold MboxSys.timedTaken
  dsimp only
  split
  · exact BoxOk.quiet h rfl rfl rfl hraises rfl rfl
  · split
    · exact BoxOk.leavesTo h rfl rfl rfl hraises rfl rfl (.inl rfl)
    · exact BoxOk.leavesTo h rfl rfl rfl hraises rfl rfl (.inl rfl)

section
variable (hr : (x.pc (fetcher m)).raises = none) (hr' : pc.raises = none)
include hr hr'

/-- The fetcher registers, and goes on to `pc`. -/
theorem BoxOk.register (hw : pc.waits = none ∨ pc.waits = some m ∧ (x.pc (fetcher m)).waits = some m)
    (hawake : x.asleep (fetcher m) = false) (m' : M) :
    BoxOk fetcher ((x.setSigProc m (some (fetcher m))).setPc (fetcher m) pc) m' := by
  have hgo : x.GoesTo ((x.setSigProc m (some (fetcher m))).setPc (fetcher m) pc) (fetcher m) pc :=
    goesTo_setPc rfl _
  have hbox : ((x.setSigProc m (some (fetcher m))).setPc (fetcher m) pc).box m =
      { x.box m with sigProc := some (fetcher m) } := update_self ..
  obtain hw | ⟨hw, hw'⟩ := hw
  · exact BoxOk.leaves h hgo (fun _ hm => update_of_ne hm _ _) hr hr' hw (fun _ _ ha => ha)
      (.inr (.inl (by rw [hbox]))) m'
  · refine BoxOk.turn h hgo (fun _ hm => update_of_ne hm _ _) (.inl hr) (.inl hr') (.inr hw) (fun _ _ ha => ha) ?_ m'
    refine (h m).fetcherWaits hgo (by rw [hr]; simp) (by rw [hr']; simp) hw' (by rw [hbox]) (by rw [hbox])
      (by rw [hbox])
      fun ha _ => ?_
    exact absurd (hawake.symm.trans ha) Bool.false_ne_true

/-- The fetcher clears `sig_proc`: not while a poster has just found it. -/
theorem BoxOk.clear (hw : pc.waits = none)
    (hok : ∀ q, x.pc q ≠ .postDo m) (m' : M) : BoxOk fetcher ((x.setSigProc m none).setPc (fetcher m) pc) m' :=
  BoxOk.leavesTo h rfl rfl rfl hr hr' hw
    (.inr (.inr ⟨rfl, hok⟩))

/-- The fetcher takes a message. -/
theorem BoxOk.pop (hw : pc.waits = none)
    (r : List MsgNode) (m' : M) : BoxOk fetcher ((x.popQueue m r).setPc (fetcher m) pc) m' :=
  BoxOk.leavesTo h rfl rfl rfl hr hr' hw (.inl rfl)

end

/-- The fetcher finds no message. -/
theorem BoxOk.empty (hr : (x.pc (fetcher m)).raises = none) (hempty : (x.box m).queue = []) (timed : Bool) (m' : M) :
    BoxOk fetcher (x.setPc (fetcher m) (.fetchRegister m timed)) m' := by
  have hgo : x.GoesTo (x.setPc (fetcher m) (.fetchRegister m timed)) (fetcher m) (.fetchRegister m timed) :=
    goesTo_setPc rfl _
  refine BoxOk.turn (m := m) h hgo (fun _ _ => rfl) (.inl hr) (.inl rfl) ?_ (fun _ _ ha => ha) ?_ m'
  · cases timed with
    | false => exact .inr rfl
    | true => exact .inl rfl
  · exact (h m).fetcherTurn hgo (by simp [raises]) (.inl rfl) (by simp) (fun _ hq => absurd hempty hq) (by simp)

/-- **The steps of a call** keep the events in order. -/
theorem BoxOk.resume (hown : x.Own fetcher) (hawake : x.asleep p = false) (hok : MboxUndisturbed fetcher x (.advance p))
    {e : List (PoolEvent M D)} (hs : x.resume p = some (x', e)) (m' : M) : BoxOk fetcher x' m' := by
  have hfetch : ∀ {pc m}, x.pc p = pc → pc.fetches = some m → p = fetcher m := fun hpc => hpc ▸ hown p _
  unfold MboxSys.resume at hs
  split at hs
  case h_1 => cases hs
  case h_2 m d again hpc =>
    have hr : (x.pc p).raises = none := by rw [hpc]; rfl
    split at hs
    · cases hs
      split
      · exact h m'
      · exact BoxOk.quiet h rfl rfl rfl hr rfl rfl
    · next msg r hfree =>
      cases hs
      exact BoxOk.quiet h rfl rfl rfl hr rfl rfl
  case h_3 m d msg hpc | h_14 m hpc | h_20 m msg hpc | h_21 msg hpc =>
    cases hs
    exact BoxOk.quiet h rfl rfl rfl (by rw [hpc]; rfl) rfl rfl
  case h_4 m msg hpc =>
    cases hs
    exact BoxOk.put h hpc m'
  case h_5 m hpc =>
    cases hs
    exact BoxOk.test h hpc ((hok m).1 hpc) m'
  case h_6 m hpc =>
    cases hs
    exact BoxOk.hook h hpc m'
  case h_7 m proc hpc =>
    cases hs
    exact BoxOk.signal h hpc m'
  case h_8 m timed hpc =>
    obtain rfl := hfetch hpc rfl
    have hr : (x.pc (fetcher m)).raises = none := by rw [hpc]; rfl
    split at hs
    · next hempty =>
      cases hs
      exact BoxOk.empty h hr hempty timed m'
    · next msg r _ =>
      cases hs
      exact BoxOk.pop h hr rfl rfl r m'
  case h_9 m timed hpc =>
    obtain rfl := hfetch hpc rfl
    cases hs
    cases timed with
    | false => exact BoxOk.register h (by rw [hpc]; rfl) rfl (.inr ⟨rfl, by rw [hpc]; rfl⟩) hawake m'
    | true => exact BoxOk.register h (by rw [hpc]; rfl) rfl (.inl rfl) hawake m'
  case h_10 m hpc =>
    obtain rfl := hfetch hpc rfl
    cases hs
    exact BoxOk.register h (by rw [hpc]; rfl) rfl (.inr ⟨rfl, by rw [hpc]; rfl⟩) hawake m'
  case h_11 m hpc =>
    obtain rfl := hfetch hpc rfl
    cases hs
    exact BoxOk.wait h hpc m'
  case h_12 m hpc =>
    obtain rfl := hfetch hpc rfl
    cases hs
    refine BoxOk.leavesTo h rfl rfl rfl (by rw [hpc]; rfl) ?_ ?_ (.inl rfl)
    · split <;> rfl
    · split <;> rfl
  case h_13 m hpc =>
    obtain rfl := hfetch hpc rfl
    cases hs
    exact BoxOk.register h (by rw [hpc]; rfl) rfl (.inl rfl) hawake m'
  case h_15 m hpc =>
    obtain rfl := hfetch hpc rfl
    cases hs
    exact BoxOk.timedWait h hpc m'
  case h_16 m res hpc =>
    obtain rfl := hfetch hpc rfl
    cases hs
    exact BoxOk.timedTaken h hpc m'
  case h_17 m hpc | h_18 m msg hpc =>
    obtain rfl := hfetch hpc rfl
    cases hs
    exact BoxOk.clear h (by rw [hpc]; rfl) rfl rfl ((hok m).2 (by simp [hpc])) m'
  case h_19 m hpc =>
    obtain rfl := hfetch hpc rfl
    have hr : (x.pc (fetcher m)).raises = none := by rw [hpc]; rfl
    split at hs
    · cases hs
      exact BoxOk.quiet h rfl rfl rfl hr rfl rfl
    · next msg r _ =>
      cases hs
      exact BoxOk.pop h hr rfl rfl r m'

/-- **Every step** keeps the events in order. -/
theorem BoxOk.step (hown : x.Own fetcher) {a : MboxAct P M D} (hok : MboxUndisturbed fetcher x a)
    {e : List (PoolEvent M D)} (hs : x.step fetcher a = some (x', e)) (m' : M) : BoxOk fetcher x' m' := by
  obtain ⟨p, pc, hp, hpc, rfl, -⟩ | ⟨p, rfl, hawake, hs⟩ | ⟨m, proc, rfl, -⟩ := step_cases hs
  · refine BoxOk.quiet h rfl rfl rfl (by rw [hp]; rfl) ?_ ?_
    all_goals obtain ⟨_, _, _, rfl⟩ | ⟨_, -, rfl | ⟨_, rfl⟩⟩ := hpc <;> rfl
  · exact BoxOk.resume h hown hawake hok hs m'
  · exact BoxOk.timer h proc m'

end

/-- The steps that `MboxUndisturbed` is about. -/
def MboxPc.restricted : MboxPc P M D → Bool
  | .postTest _ | .timeoutClear _ | .fetchClear _ _ => true
  | _ => false

omit [DecidableEq P] [DecidableEq M] in
/-- Only three places can be disturbed. -/
theorem mboxUndisturbed_of_pc (hpc : (x.pc p).restricted = false) : MboxUndisturbed fetcher x (.advance p) := by
  have hne : ∀ pc, x.pc p = pc → pc.restricted = false := fun pc he => he ▸ hpc
  intro m
  refine ⟨fun h => ?_, ?_⟩
  · cases hne _ h
  · rintro (h | ⟨msg, h⟩)
    · cases hne _ h
    · cases hne _ h

/-- All events are in order along every undisturbed run. -/
theorem boxOk_run {log : List (PoolEvent M D)} (h : (mboxMachine D fetcher).Run (MboxUndisturbed fetcher) x log) :
    x.Own fetcher ∧ ∀ m, BoxOk fetcher x m := by
  refine h.invariant (I := fun x _ => x.Own fetcher ∧ ∀ m, BoxOk fetcher x m) ?_ ?_
  · rintro x ⟨data, rfl⟩
    exact ⟨(fun p m hm => by cases hm), fun m => {
      proc := .inl rfl
      testing := fun p hp => by cases hp
      signalling := fun p q hp => by cases hp
      registered := fun hp => hp.elim (fun hp => by cases hp) fun hp => by cases hp
      covered := fun hw => by cases hw
      blocked := fun ha => by cases ha }⟩
  · rintro x log a x' e ⟨hown, hbox⟩ hok hs
    exact ⟨hown.step hs, BoxOk.step hbox hown hok hs⟩

omit [DecidableEq P] [DecidableEq M] in
/-- A fetcher that waits on a mailbox with a message has somebody who raises its event. -/
theorem BoxOk.raised (h : BoxOk fetcher x m) (hpc : x.pc (fetcher m) = .sigWait m) (ha : x.asleep (fetcher m) = true)
    (hq : (x.box m).queue ≠ []) : ∃ p, x.Raises fetcher p m := by
  have hreg := h.registered (.inr hpc)
  obtain hrecv | ⟨p, hp⟩ := h.covered (by rw [hpc]; rfl) hq
  · exact absurd (h.blocked ha hpc).2 hrecv
  · refine ⟨p, ?_⟩
    obtain hp | hp | ⟨q, hp⟩ := raises_cases hp
    · exact .inl ⟨.inl hp, hreg⟩
    · exact .inl ⟨.inr hp, hreg⟩
    · exact .inr (by rw [hp, h.signalling p q hp])

end Event

/-- **The mailboxes are reliable queues**, in every run in which the event is not disturbed: what was put into a mailbox
is what was got from it, followed by what is still there; every node is at one place; and a fetcher that sleeps on a
mailbox with a message has a poster on the way to its event. -/
theorem mbox_reliable (fetcher : M → P) {x : MboxSys P M D} {log : List (PoolEvent M D)}
    (h : (mboxMachine D fetcher).Run (MboxUndisturbed fetcher) x log) :
    (∀ m, putInto m log = gotFrom m log ++ (x.pool.inHand fetcher m ++ (x.box m).queue).map x.data) ∧
      (x.free.Nodup ∧ (∀ m, (x.box m).queue.Nodup) ∧ ∀ n, ∃ l, x.pool.At n l ∧ ∀ l', x.pool.At n l' → l' = l) ∧
      ∀ m, x.pc (fetcher m) = .sigWait m → x.asleep (fetcher m) = true → (x.box m).queue ≠ [] →
        ∃ p, x.Raises fetcher p m := by
  obtain ⟨-, hpool⟩ := pool_run h
  obtain ⟨loc, hplaced⟩ := hpool.placed
  refine ⟨hpool.fifo, ⟨hplaced.free, hplaced.queue, fun n => ⟨loc n, ?_, fun l' hl' => ?_⟩⟩, fun m => ?_⟩
  · exact (hplaced.at_iff n (loc n)).mpr rfl
  · exact ((hplaced.at_iff n l').mp hl').symm
  · exact ((boxOk_run h).2 m).raised

end

/-- The fetcher sleeps on a mailbox with a message, and nobody raises its event: the message was posted between
`msg_get` and the registration. -/
theorem mbox_strands : ∃ (x : MboxSys (Fin 2) Unit ℕ) (log : List (PoolEvent Unit ℕ)),
    (mboxMachine ℕ fun _ => (0 : Fin 2)).Run (fun _ _ => True) x log ∧ x.pc 0 = .sigWait () ∧ x.asleep 0 = true ∧
      (x.box ()).queue ≠ [] ∧ (x.box ()).sig.recv &&& eventGenericSignal = 0 ∧ x.pc 1 = .user := by
  have hinit : (mboxMachine ℕ fun _ : Unit => (0 : Fin 2)).Run (fun _ _ => True) _ [] := .init ⟨fun _ => 0, rfl⟩
  have hrun := @Machine.Run.exec _ _ _ _ (fun _ _ => True) _ _ _ hinit
    [.fetch () false, .advance 0, .post 1 () 7 false, .advance 1, .advance 1, .advance 1, .advance 1, .advance 0,
      .advance 0, .advance 0] _ rfl
  exact ⟨_, _, hrun, rfl, rfl, List.cons_ne_nil _ _, rfl, rfl⟩

/-- The hypotheses hold: the fetcher sleeps, and a poster has put a message into its mailbox. -/
theorem mbox_reliable_posted : ∃ (x : MboxSys (Fin 2) Unit ℕ) (log : List (PoolEvent Unit ℕ)),
    (mboxMachine ℕ fun _ => (0 : Fin 2)).Run (MboxUndisturbed fun _ => 0) x log ∧ x.asleep 0 = true ∧
      (x.box ()).queue ≠ [] ∧ ∃ p, x.Raises (fun _ => 0) p () := by
  have h₀ : (mboxMachine ℕ fun _ : Unit => (0 : Fin 2)).Run (MboxUndisturbed fun _ => 0) _ [] := .init ⟨fun _ => 0, rfl⟩
  have h₁ := h₀.step (a := fetch () false) trivial rfl
  have h₂ := h₁.step (a := advance 0) (mboxUndisturbed_of_pc rfl) rfl
  have h₃ := h₂.step (a := advance 0) (mboxUndisturbed_of_pc rfl) rfl
  have h₄ := h₃.step (a := advance 0) (mboxUndisturbed_of_pc rfl) rfl
  have h₅ := h₄.step (a := advance 0) (mboxUndisturbed_of_pc rfl) rfl
  have h₆ := h₅.step (a := post 1 () 7 false) trivial rfl
  have h₇ := h₆.step (a := advance 1) (mboxUndisturbed_of_pc rfl) rfl
  have h₈ := h₇.step (a := advance 1) (mboxUndisturbed_of_pc rfl) rfl
  have h₉ := h₈.step (a := advance 1) (mboxUndisturbed_of_pc rfl) rfl
  exact ⟨_, _, h₉, rfl, List.cons_ne_nil _ _, (mbox_reliable _ h₉).2.2 () rfl rfl (List.cons_ne_nil _ _)⟩

end Bertos
