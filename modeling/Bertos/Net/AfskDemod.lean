import Bertos.Lib.CTypes
import Bertos.Net.Afsk
import Bertos.Struct.Fifo

/-!
# The demodulator of the AFSK modem (`afsk_adc_isr` of `bertos/net/afsk.c`)

Samples are bytes, read as `int8_t`. The values that an interrupt assigns to `iir_x[1]`, `iir_y[1]` and `curr_phase`
are given as integers in `Assigned`, and the state has what is left of them in 16 and 8 bits. What an interrupt can see
of the rx FIFO is a parameter. Nothing is lost, whatever the samples are (`afsk_never_overflows`): a turn of the filter
maps an interval into itself.
-/

namespace Bertos

open FIFOBuffer

/-! ## `afsk_adc_isr` -/

/-- The values of `CONFIG_AFSK_FILTER`. -/
inductive AfskFilter
  | butterworth
  | chebyshev

def sampleperbit : ℕ := 9600 / bitrate

def phaseBit : ℤ := 8
def phaseInc : ℤ := 1
def phaseMax : ℤ := sampleperbit * phaseBit
def phaseThres : ℤ := phaseMax / 2

/-- A byte as `int8_t`. -/
def int8 (b : UInt8) : ℤ := toSigned 8 b.toNat

/-- `fifo_push`, with the memory. -/
def fifoPush (c : UInt8) : FIFOBuffer × (ℕ → UInt8) → FIFOBuffer × (ℕ → UInt8)
  | (fb, mem) => (fb.moveTail, Function.update mem fb.tail c)

/-- `fifo_pop` -/
def fifoPop (fb : FIFOBuffer) (mem : ℕ → UInt8) : UInt8 × FIFOBuffer := (mem fb.head, fb.moveHead)

structure Demod where
  delayFifo : FIFOBuffer
  delayMem : ℕ → UInt8
  /-- `iir_x[1]` and `iir_y[1]`; the other cells are set before they are used. -/
  iirX : ℤ
  iirY : ℤ
  sampledBits : UInt8
  currPhase : ℤ
  foundBits : UInt8
  hdlc : Hdlc
  overrun : Bool

/-- The values that an interrupt assigns, before they are stored. -/
structure Assigned where
  iirX : ℤ
  iirY : ℤ
  currPhase : List ℤ

/-- `EDGE_FOUND` -/
def edgeFound (bitline : UInt8) : Bool := (bitline ^^^ (bitline >>> 1)) &&& 0x01 ≠ 0

/-- The bit that two of the last three samples have. -/
def majority (sampledBits : UInt8) : Bool :=
  let bits := sampledBits &&& 0x07
  bits = 0x07 ∨ bits = 0x06 ∨ bits = 0x05 ∨ bits = 0x03

/-- The filter; a shift of a signed value to the right rounds down. -/
def iirFilter : AfskFilter → (x₀ x₁ y₀ : ℤ) → ℤ
  | .butterworth, x₀, x₁, y₀ => x₀ + x₁ + y₀ / 2 + y₀ / 8 + y₀ / 32
  | .chebyshev, x₀, x₁, y₀ => x₀ + x₁ + y₀ / 2

/-- The correction of the phase at an edge. -/
def adjustPhase (edge : Bool) (phase : ℤ) : ℤ :=
  if edge then if phase < phaseThres then phase + phaseInc else phase - phaseInc else phase

def afskAdcIsr (filter : AfskFilter) (full : ℕ → Bool) (af : Demod) (currSample : UInt8) : Demod × Assigned :=
  match fifoPop af.delayFifo af.delayMem with
  | (delayed, fifo) =>
    let x := int8 delayed * int8 currSample / 4
    let x₁ := toSigned 16 x
    let y := iirFilter filter af.iirX x₁ af.iirY
    let y₁ := toSigned 16 y
    let sampledBits := (af.sampledBits <<< 1) ||| (if 0 < y₁ then 1 else 0)
    match fifoPush currSample (fifo, af.delayMem) with
    | (fifo, mem) =>
      let adjusted := adjustPhase (edgeFound sampledBits) af.currPhase
      let phase := toSigned 8 adjusted + phaseBit
      let next : Demod := { af with delayFifo := fifo, delayMem := mem, iirX := x₁, iirY := y₁,
                                    sampledBits := sampledBits, currPhase := toSigned 8 phase }
      if phaseMax ≤ toSigned 8 phase then
        let foundBits := (af.foundBits <<< 1) ||| (if majority sampledBits then 1 else 0)
        match hdlcParse full af.hdlc (!edgeFound foundBits) with
        | (hdlc, _, ok) =>
          ({ next with currPhase := toSigned 8 phase % phaseMax, foundBits := foundBits, hdlc := hdlc,
                       overrun := af.overrun || !ok },
            ⟨x, y, [adjusted, phase, toSigned 8 phase % phaseMax]⟩)
      else (next, ⟨x, y, [adjusted, phase]⟩)

/-- The state that `afsk_init` sets up, with the delay buffer at `buf`. -/
def demodInit (buf : ℕ) : Demod :=
  match (fifoPush 0)^[sampleperbit / 2] (fifoInit buf (sampleperbit / 2 + 1), fun _ => 0) with
  | (fifo, mem) => ⟨fifo, mem, 0, 0, 0, 0, 0, hdlcInit, false⟩

/-- The state after the first `n` samples. -/
def demodRun (filter : AfskFilter) (buf : ℕ) (samples : ℕ → UInt8) (full : ℕ → ℕ → Bool) : ℕ → Demod
  | 0 => demodInit buf
  | n + 1 => (afskAdcIsr filter (full n) (demodRun filter buf samples full n) (samples n)).1

/-! ## No overflow -/

structure DemodInv (af : Demod) : Prop where
  valid : af.delayFifo.Valid
  size : af.delayFifo.size = sampleperbit / 2 + 1
  count : af.delayFifo.count = sampleperbit / 2
  iirX : -4096 ≤ af.iirX ∧ af.iirX ≤ 4096
  iirY : -24000 < af.iirY ∧ af.iirY < 24000
  phase : 0 ≤ af.currPhase ∧ af.currPhase < phaseMax

/-- Every value that is assigned fits. -/
structure Assigned.Fits (a : Assigned) : Prop where
  iirX : -32768 ≤ a.iirX ∧ a.iirX ≤ 32767
  iirY : -24000 < a.iirY ∧ a.iirY < 24000
  currPhase : ∀ v ∈ a.currPhase, -128 ≤ v ∧ v ≤ 127

theorem int8_range (b : UInt8) : -128 ≤ int8 b ∧ int8 b ≤ 127 := by
  have h := toSigned_range (b := 8) (by decide) b.toNat
  unfold int8
  omega

theorem discriminator_range (b c : UInt8) : -4096 ≤ int8 b * int8 c / 4 ∧ int8 b * int8 c / 4 ≤ 4096 := by
  have hb := int8_range b
  have hc := int8_range c
  have habs : (int8 b * int8 c).natAbs ≤ 128 * 128 := by
    rw [Int.natAbs_mul]
    exact Nat.mul_le_mul (by omega) (by omega)
  omega

/-- The interval of the output is mapped into itself. -/
theorem iirFilter_range (filter : AfskFilter) {x₀ x₁ y₀ : ℤ} (h0 : -4096 ≤ x₀ ∧ x₀ ≤ 4096) (h1 : -4096 ≤ x₁ ∧ x₁ ≤ 4096)
    (hy : -24000 < y₀ ∧ y₀ < 24000) :
    -24000 < iirFilter filter x₀ x₁ y₀ ∧ iirFilter filter x₀ x₁ y₀ < 24000 := by
  cases filter <;> simp only [iirFilter] <;> omega

/-- A pop and a push leave as many samples in the delay line. -/
theorem delayLine_step {fb : FIFOBuffer} (hv : fb.Valid) (hsize : fb.size = sampleperbit / 2 + 1)
    (hcount : fb.count = sampleperbit / 2) : fb.moveHead.moveTail.Valid ∧
      fb.moveHead.moveTail.size = sampleperbit / 2 + 1 ∧ fb.moveHead.moveTail.count = sampleperbit / 2 := by
  have hhalf : sampleperbit / 2 = 4 := by decide
  have hne : fb.head ≠ fb.tail := by
    intro h
    rw [count, h, if_pos (Nat.le_refl _)] at hcount
    omega
  have hpop := hv.count_moveHead hne
  have hfree : fb.moveHead.count + 2 ≤ fb.moveHead.size := by
    have : fb.moveHead.size = fb.size := rfl
    omega
  refine ⟨hv.moveHead.moveTail, hsize, ?_⟩
  rw [hv.moveHead.count_moveTail hfree, hpop, hcount]

theorem adjustPhase_range (edge : Bool) {phase : ℤ} (h : 0 ≤ phase ∧ phase < phaseMax) :
    0 ≤ adjustPhase edge phase ∧ adjustPhase edge phase < phaseMax := by
  simp only [adjustPhase, phaseThres, phaseInc, show phaseMax = 64 from rfl] at h ⊢
  split_ifs <;> omega

/-- **The interrupt** keeps the indices and the sums of the demodulator in range. -/
theorem DemodInv.isr (filter : AfskFilter) (full : ℕ → Bool) {af : Demod} (h : DemodInv af) (c : UInt8) :
    DemodInv (afskAdcIsr filter full af c).1 ∧ (afskAdcIsr filter full af c).2.Fits := by
  have hmax : phaseMax = 64 := rfl
  obtain ⟨hv, hsize, hcount⟩ := delayLine_step h.valid h.size h.count
  have hx := discriminator_range (af.delayMem af.delayFifo.head) c
  unfold afskAdcIsr fifoPop fifoPush
  dsimp only
  generalize int8 (af.delayMem af.delayFifo.head) * int8 c / 4 = x at hx ⊢
  have hx1 : toSigned 16 x = x := toSigned_of_range (by decide) (by omega) (by omega)
  have hy := iirFilter_range filter h.iirX hx h.iirY
  rw [hx1]
  generalize iirFilter filter af.iirX x af.iirY = y at hy ⊢
  have hy1 : toSigned 16 y = y := toSigned_of_range (by decide) (by omega) (by omega)
  rw [hy1]
  generalize af.sampledBits <<< 1 ||| (if 0 < y then 1 else 0) = bits
  have hp := adjustPhase_range (edgeFound bits) h.phase
  generalize adjustPhase (edgeFound bits) af.currPhase = p at hp ⊢
  have hp1 : toSigned 8 p = p := toSigned_of_range (by decide) (by omega) (by omega)
  have hp2 : toSigned 8 (p + phaseBit) = p + phaseBit := by
    unfold phaseBit
    exact toSigned_of_range (by decide) (by omega) (by omega)
  rw [hp1, hp2, show phaseBit = 8 from rfl, hmax]
  rw [hmax] at hp
  have hfits : -32768 ≤ x ∧ x ≤ 32767 := by omega
  split
  · generalize hdlcParse full af.hdlc _ = r
    obtain ⟨hdlc, out, ok⟩ := r
    refine ⟨⟨hv, hsize, hcount, hx, hy, ?_⟩, ⟨hfits, hy, ?_⟩⟩
    · rw [hmax]
      exact ⟨Int.emod_nonneg _ (by decide), Int.emod_lt_of_pos _ (by decide)⟩
    · rintro v hv
      simp only [List.mem_cons, List.not_mem_nil, or_false] at hv
      rcases hv with rfl | rfl | rfl <;> omega
  · rename_i hlt
    refine ⟨⟨hv, hsize, hcount, hx, hy, ?_⟩, ⟨hfits, hy, ?_⟩⟩
    · show 0 ≤ p + 8 ∧ p + 8 < phaseMax
      omega
    · rintro v hv
      simp only [List.mem_cons, List.not_mem_nil, or_false] at hv
      rcases hv with rfl | rfl <;> omega

theorem demodInv_init (buf : ℕ) : DemodInv (demodInit buf) := by
  have hfifo : (demodInit buf).delayFifo = ⟨buf, buf + 4, buf, buf + 4⟩ := by
    simp [demodInit, fifoPush, fifoInit, moveTail, forward, show sampleperbit / 2 = 4 from rfl]
  have hzero : (demodInit buf).iirX = 0 ∧ (demodInit buf).iirY = 0 ∧ (demodInit buf).currPhase = 0 := ⟨rfl, rfl, rfl⟩
  have hmax : phaseMax = 64 := rfl
  refine ⟨?_, ?_, ?_, by omega, by omega, by omega⟩ <;> rw [hfifo]
  · constructor <;> simp
  · show buf + 4 + 1 - buf = 4 + 1
    omega
  · simp [count, show sampleperbit / 2 = 4 from rfl]

theorem demodInv_run (filter : AfskFilter) (buf : ℕ) (samples : ℕ → UInt8) (full : ℕ → ℕ → Bool) :
    ∀ n, DemodInv (demodRun filter buf samples full n)
  | 0 => demodInv_init buf
  | n + 1 => ((demodInv_run filter buf samples full n).isr filter (full n) (samples n)).1

/-- **The demodulator never overflows**: whatever the samples are, when an interrupt starts the delay line is full and
the phase is inside a bit, and what the interrupt assigns fits. -/
theorem afsk_never_overflows (filter : AfskFilter) (buf : ℕ) (samples : ℕ → UInt8) (full : ℕ → ℕ → Bool) (n : ℕ) :
    (demodRun filter buf samples full n).delayFifo.count = sampleperbit / 2 ∧
      0 ≤ (demodRun filter buf samples full n).currPhase ∧
      (demodRun filter buf samples full n).currPhase ≤ phaseMax - 1 ∧
      (afskAdcIsr filter (full n) (demodRun filter buf samples full n) (samples n)).2.Fits := by
  have h := demodInv_run filter buf samples full n
  exact ⟨h.count, h.phase.1, Int.le_sub_one_of_lt h.phase.2, (h.isr filter (full n) (samples n)).2⟩

end Bertos
