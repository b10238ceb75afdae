import TetraBs.Lib.DelayLine
import TetraBs.Lib.Cic
import TetraBs.Lib.Requests
import TetraBs.Lib.Signed

/-! The serial multiply-accumulate that the two RRC filters share: the taps, and for each of I and
Q a shift register of samples with an accumulator of 38 bits. -/
namespace TetraBs.Phy
open TetraBs.DelayLine TetraBs.Signed

/-- `H00` to `H32`. -/
def rrcH : List (BitVec 16) :=
  [0x0011, 0x006D, 0x004E, 0xFFB2, 0xFF2F, 0xFF87, 0x00D2, 0x0217, 0x01D4, 0xFF4B, 0xFBAC, 0xF9F7,
   0xFD4A, 0x06A0, 0x1373, 0x1EA4, 0x2312, 0x1EA4, 0x1373, 0x06A0, 0xFD4A, 0xF9F7, 0xFBAC, 0xFF4B,
   0x01D4, 0x0217, 0x00D2, 0xFF87, 0xFF2F, 0xFFB2, 0x004E, 0x006D, 0x0011]

structure RrcChannel (n : ℕ) where
  shift : BitVec n := 0
  acc : BitVec 38 := 0
deriving DecidableEq

namespace RrcChannel
variable {m n : ℕ}

def tap (c : RrcChannel n) (k : ℕ) : BitVec 16 := word 16 c.shift k

/-- A product of 32 bits, widened. -/
def product (tap coeff : BitVec 16) : BitVec 38 :=
  (tap.signExtend 32 * coeff.signExtend 32).signExtend 38

/-- The accumulator after tap `k`; tap 0 clears it. -/
def accNext (c : RrcChannel n) (k : ℕ) (coeff : BitVec 16) : BitVec 38 :=
  if k = 0 then product (c.tap k) coeff else c.acc + product (c.tap k) coeff

/-- The integer part of a sum of Q14 products. -/
def sat (acc : BitVec 38) : BitVec 16 := saturate 16 (acc.sshiftRight 14)

theorem product_toInt (tap coeff : BitVec 16) :
    (product tap coeff).toInt = tap.toInt * coeff.toInt := by
  have hprod := abs_le.1 (abs_mul_le (abs_toInt_le tap) (abs_toInt_le coeff))
  unfold product
  rw [toInt_signExtend _ (by decide), toInt_mul] <;>
    rw [toInt_signExtend _ (by decide), toInt_signExtend _ (by decide)]
  exact ⟨by norm_num at hprod ⊢; omega, by norm_num at hprod ⊢; omega⟩

theorem abs_product_le (tap coeff : BitVec 16) : |tap.toInt * coeff.toInt| ≤ 2 ^ 30 :=
  abs_mul_le (abs_toInt_le tap) (abs_toInt_le coeff)

theorem sat_eq (acc : BitVec 38) : sat acc = BitVec.ofInt 16 (clamp 16 (acc.toInt / 2 ^ 14)) := by
  apply BitVec.eq_of_toInt_eq
  rw [sat, toInt_saturate _ (by decide) (by decide), toInt_sshiftRight,
    toInt_ofInt (fits_clamp (by decide) _)]

/-- The accumulator holds the products of the first `t` taps; before tap 0 it may hold
anything. -/
def Sums (c : RrcChannel n) (h : ℕ → BitVec 16) (ds : List (BitVec 16)) (t : ℕ) : Prop :=
  0 < t → c.acc.toInt = ∑ k ∈ Finset.range t, (h k).toInt * (ds.getD k 0).toInt

theorem Sums.next {c : RrcChannel n} {h : ℕ → BitVec 16} {ds : List (BitVec 16)} {t N : ℕ}
    (hs : Sums c h ds t) (hshows : Shows c.shift ds N) (ht : t < N) (hroom : N < 128) :
    (c.accNext t (h t)).toInt =
      ∑ k ∈ Finset.range (t + 1), (h k).toInt * (ds.getD k 0).toInt := by
  have hprod : (product (c.tap t) (h t)).toInt = (h t).toInt * (ds.getD t 0).toInt := by
    rw [product_toInt, tap, hshows t ht, mul_comm]
  unfold accNext
  by_cases hzero : t = 0
  · rw [if_pos hzero, hprod, hzero, Finset.sum_range_one]
  · rw [if_neg hzero]
    refine toInt_accumulate (hs (Nat.pos_of_ne_zero hzero)) hprod
      (fun j => abs_product_le (h j) (ds.getD j 0)) ?_
    norm_num
    omega

/-- An accumulator that has seen `t` products is at most that many products large. -/
def Room (c : RrcChannel n) (t : ℕ) : Prop := 0 < t → |c.acc.toInt| ≤ t * 2 ^ 30

/-- No wrap: the accumulator after the tap is the integer sum. -/
def Exact (c : RrcChannel n) (t : ℕ) (coeff : BitVec 16) : Prop :=
  (c.accNext t coeff).toInt =
    (if t = 0 then 0 else c.acc.toInt) + (c.tap t).toInt * coeff.toInt

theorem Room.exact {c : RrcChannel n} {t : ℕ} (h : Room c t) (ht : t < 127) (coeff : BitVec 16) :
    Exact c t coeff := by
  unfold Exact accNext
  by_cases hzero : t = 0
  · rw [if_pos hzero, if_pos hzero, product_toInt, zero_add]
  · have hacc := abs_le.1 (h (Nat.pos_of_ne_zero hzero))
    have hprod := abs_le.1 (abs_product_le (c.tap t) coeff)
    rw [if_neg hzero, if_neg hzero, toInt_add] <;> rw [product_toInt]
    norm_num at hacc hprod
    exact ⟨by norm_num; omega, by norm_num; omega⟩

theorem Room.next {c c' : RrcChannel n} {t : ℕ} (h : Room c t) (ht : t < 127)
    {coeff : BitVec 16} (hacc : c'.acc = c.accNext t coeff) : Room c' (t + 1) := by
  intro _
  have hexact := h.exact ht coeff
  have hprod := abs_product_le (c.tap t) coeff
  rw [hacc, hexact]
  by_cases hzero : t = 0
  · rw [if_pos hzero, zero_add, hzero]
    rw [hzero] at hprod
    simpa using hprod
  · rw [if_neg hzero]
    refine (abs_add_le _ _).trans ?_
    have hle := h (Nat.pos_of_ne_zero hzero)
    push_cast
    linarith

end RrcChannel
end TetraBs.Phy

/-! `tetra_rrc_filter`: the pulse shaping of the transmitter, four samples a symbol, computed tap
by tap. One step is one rising clock edge. -/
namespace TetraBs.Phy
open TetraBs.DelayLine TetraBs.Fir TetraBs.Pacing TetraBs.Requests TetraBs.Run TetraBs.Serial
  TetraBs.Signed

structure RrcInput where
  iIn : BitVec 16
  qIn : BitVec 16
  sampleValidIn : Bool
deriving DecidableEq

inductive MacState where
  | idle | mac
deriving DecidableEq

structure RrcFilter where
  i : RrcChannel 144 := {}
  q : RrcChannel 144 := {}
  macState : MacState := .idle
  macTap : BitVec 4 := 0
  phaseCnt : BitVec 2 := 0
  iOut : BitVec 16 := 0
  qOut : BitVec 16 := 0
  sampleValidOut : Bool := false
deriving DecidableEq

namespace RrcFilter

def reset : RrcFilter := {}

def LAST_TAP : BitVec 4 := 8
def LAST_PHASE : BitVec 2 := 3

/-- The polyphase mux: tap `phase + 4 * tap`, zero where there is none. -/
def coeff (phase : BitVec 2) (tap : BitVec 4) : BitVec 16 :=
  rrcH.getD (phase.toNat + 4 * tap.toNat) 0

def macNext (s : RrcFilter) (i : RrcInput) : MacState :=
  match s.macState with
  | .idle => if i.sampleValidIn then .mac else .idle
  | .mac => if s.phaseCnt = LAST_PHASE ∧ s.macTap = LAST_TAP then .idle else .mac

def phaseDone (s : RrcFilter) : Bool := s.macState = .mac && s.macTap = LAST_TAP

/-- `i_acc_next_sys` or `q_acc_next_sys`. -/
def accNext (s : RrcFilter) (c : RrcChannel 144) : BitVec 38 :=
  c.accNext s.macTap.toNat (coeff s.phaseCnt s.macTap)

def channelStep (s : RrcFilter) (c : RrcChannel 144) (valid : Bool) (x : BitVec 16) :
    RrcChannel 144 where
  shift := if valid then push c.shift x else c.shift
  acc := if s.macState = .mac then s.accNext c else c.acc

def step (s : RrcFilter) (i : RrcInput) : RrcFilter where
  i := s.channelStep s.i i.sampleValidIn i.iIn
  q := s.channelStep s.q i.sampleValidIn i.qIn
  macState := s.macNext i
  macTap := if s.macState = .mac then if s.macTap = LAST_TAP then 0 else s.macTap + 1 else 0
  phaseCnt :=
    if s.macState = .mac then if s.macTap = LAST_TAP then s.phaseCnt + 1 else s.phaseCnt else 0
  iOut := if s.phaseDone then RrcChannel.sat (s.accNext s.i) else s.iOut
  qOut := if s.phaseDone then RrcChannel.sat (s.accNext s.q) else s.qOut
  sampleValidOut := s.phaseDone

/-! The filter as it is meant. -/

def hTap (k : ℕ) : ℤ := (rrcH.getD k 0).toInt

def samples (ds : List (BitVec 16)) (n : ℕ) : ℤ := (ds.map BitVec.toInt).getD n 0

/-- The 33 taps on the symbols with three zeros behind each. -/
def direct (ds : List (BitVec 16)) (m : ℕ) : ℤ := conv hTap 33 (stuffed 4 (samples ds)) m

/-- The integer part of a sum of Q14 products, in 16 bits. -/
def shaped (y : ℤ) : BitVec 16 := BitVec.ofInt 16 (clamp 16 (y / 2 ^ 14))

theorem direct_polyphase (ds : List (BitVec 16)) (n : ℕ) {p : ℕ} (hp : p < 4) :
    direct ds (4 * n + p) = conv (fun k => hTap (p + 4 * k)) 9 (samples ds) n := by
  have hzero : ∀ k, 33 ≤ k → hTap k = 0 := by
    intro k hk
    rw [hTap, List.getD_eq_default]
    · rfl
    · exact hk
  rw [direct, conv_extend (by decide : 33 ≤ 4 * 9) hzero]
  exact conv_stuffed hTap hp 9 (samples ds) n

/-! A symbol. -/

/-- What `sample_valid_out` presents after the edge. -/
def presented : Reader RrcFilter RrcInput (BitVec 16 × BitVec 16) :=
  ⟨step, fun s i => if (step s i).sampleValidOut then [((step s i).iOut, (step s i).qOut)] else []⟩

/-- The sum of phase `p` over the symbols, newest first. -/
def phaseSum (ds : List (BitVec 16)) (p : ℕ) : ℤ :=
  ∑ k ∈ Finset.range 9, hTap (p + 4 * k) * (ds.getD k 0).toInt

def phaseOut (hist : List RrcInput) (p : ℕ) : BitVec 16 × BitVec 16 :=
  (shaped (phaseSum (hist.map RrcInput.iIn) p), shaped (phaseSum (hist.map RrcInput.qIn) p))

/-- The filter seen from its symbols. -/
def phases : Reader (List RrcInput) RrcInput (BitVec 16 × BitVec 16) :=
  recalling fun hist => (List.range 4).map (phaseOut hist)

structure Shifted (s : RrcFilter) (hist : List RrcInput) : Prop where
  i : Shows s.i.shift (hist.map RrcInput.iIn) 9
  q : Shows s.q.shift (hist.map RrcInput.qIn) 9

structure Idle (hist : List RrcInput) (s : RrcFilter) : Prop extends Shifted s hist where
  state : s.macState = .idle

def phaseTap (p k : ℕ) : BitVec 16 := rrcH.getD (p + 4 * k) 0

/-- The next tap is tap `t` of phase `p`. -/
structure Busy (hist : List RrcInput) (p t : ℕ) (s : RrcFilter) : Prop extends Shifted s hist where
  state : s.macState = .mac
  tap : s.macTap.toNat = t
  phase : s.phaseCnt.toNat = p
  iSum : s.i.Sums (phaseTap p) (hist.map RrcInput.iIn) t
  qSum : s.q.Sums (phaseTap p) (hist.map RrcInput.qIn) t

theorem Shifted.keep {s : RrcFilter} {hist : List RrcInput} (h : Shifted s hist) {i : RrcInput}
    (hi : i.sampleValidIn = false) : Shifted (s.step i) hist := by
  have hkeep : ∀ c x, (s.channelStep c i.sampleValidIn x).shift = c.shift := by
    intro c x
    rw [channelStep, hi, if_neg Bool.false_ne_true]
  refine ⟨?_, ?_⟩
  · show Shows (s.channelStep s.i i.sampleValidIn i.iIn).shift _ 9
    rw [hkeep]
    exact h.i
  · show Shows (s.channelStep s.q i.sampleValidIn i.qIn).shift _ 9
    rw [hkeep]
    exact h.q

theorem Shifted.take {s : RrcFilter} {hist : List RrcInput} (h : Shifted s hist) {i : RrcInput}
    (hi : i.sampleValidIn = true) : Shifted (s.step i) (i :: hist) := by
  have htake : ∀ c x, (s.channelStep c i.sampleValidIn x).shift = push c.shift x := by
    intro c x
    rw [channelStep, if_pos hi]
  refine ⟨?_, ?_⟩
  · show Shows (s.channelStep s.i i.sampleValidIn i.iIn).shift _ 9
    rw [htake]
    exact h.i.push (by decide) i.iIn
  · show Shows (s.channelStep s.q i.sampleValidIn i.qIn).shift _ 9
    rw [htake]
    exact h.q.push (by decide) i.qIn

theorem silent {s : RrcFilter} (h : s.phaseDone = false) (i : RrcInput) :
    presented.out s i = [] := by
  have hvalid : ¬(step s i).sampleValidOut = true := by
    show ¬s.phaseDone = true
    rw [h]
    exact Bool.false_ne_true
  exact if_neg hvalid

theorem Idle.silent {hist : List RrcInput} {s : RrcFilter} (h : Idle hist s) (i : RrcInput) :
    presented.out s i = [] := by
  apply RrcFilter.silent
  rw [phaseDone, h.state]
  rfl

theorem Idle.wait {hist : List RrcInput} {s : RrcFilter} (h : Idle hist s) {i : RrcInput}
    (hi : i.sampleValidIn = false) : Idle hist (s.step i) := by
  refine ⟨h.keep hi, ?_⟩
  show s.macNext i = .idle
  rw [macNext, h.state, hi]
  rfl

theorem Idle.start {hist : List RrcInput} {s : RrcFilter} (h : Idle hist s) {i : RrcInput}
    (hi : i.sampleValidIn = true) : Busy (i :: hist) 0 0 (s.step i) := by
  have hidle : ¬s.macState = .mac := by
    rw [h.state]
    exact MacState.noConfusion
  refine ⟨h.take hi, ?_, ?_, ?_, fun h0 => absurd h0 (Nat.lt_irrefl 0),
    fun h0 => absurd h0 (Nat.lt_irrefl 0)⟩
  · show s.macNext i = .mac
    rw [macNext, h.state, hi]
    rfl
  · show (if s.macState = .mac then _ else (0 : BitVec 4)).toNat = 0
    rw [if_neg hidle]
    rfl
  · show (if s.macState = .mac then _ else (0 : BitVec 2)).toNat = 0
    rw [if_neg hidle]
    rfl

theorem Busy.coeff_eq {hist : List RrcInput} {p t : ℕ} {s : RrcFilter} (h : Busy hist p t s) :
    coeff s.phaseCnt s.macTap = phaseTap p t := by
  rw [coeff, h.phase, h.tap]
  rfl

theorem Busy.sum {hist : List RrcInput} {p t : ℕ} {s : RrcFilter} (h : Busy hist p t s)
    {c : RrcChannel 144} {ds : List (BitVec 16)} (hc : Shows c.shift ds 9)
    (hs : c.Sums (phaseTap p) ds t) (ht : t < 9) : (s.accNext c).toInt =
      ∑ k ∈ Finset.range (t + 1), (phaseTap p k).toInt * (ds.getD k 0).toInt := by
  rw [accNext, h.tap, h.coeff_eq]
  exact hs.next hc ht (by decide)

theorem Busy.next {hist : List RrcInput} {p t : ℕ} {s : RrcFilter} (h : Busy hist p t s)
    (ht : t < 8) {i : RrcInput} (hi : i.sampleValidIn = false) :
    presented.out s i = [] ∧ Busy hist p (t + 1) (s.step i) := by
  have hlast : ¬s.macTap = LAST_TAP := by
    intro heq
    have htap := h.tap
    rw [heq] at htap
    exact absurd htap (by rw [LAST_TAP]; exact Nat.ne_of_gt ht)
  have hacc : ∀ c valid x, (s.channelStep c valid x).acc = s.accNext c := by
    intro c valid x
    rw [channelStep, if_pos h.state]
  refine ⟨?_, h.keep hi, ?_, ?_, ?_, fun _ => ?_, fun _ => ?_⟩
  · apply silent
    rw [phaseDone, decide_eq_false hlast, Bool.and_false]
  · show s.macNext i = .mac
    rw [macNext, h.state]
    exact if_neg fun hend => hlast hend.2
  · show (if s.macState = .mac then if s.macTap = LAST_TAP then 0 else s.macTap + 1
      else (0 : BitVec 4)).toNat = t + 1
    rw [if_pos h.state, if_neg hlast, BitVec.toNat_add, h.tap]
    exact Nat.mod_eq_of_lt (by show t + 1 < 16; omega)
  · show (if s.macState = .mac then if s.macTap = LAST_TAP then s.phaseCnt + 1 else s.phaseCnt
      else (0 : BitVec 2)).toNat = p
    rw [if_pos h.state, if_neg hlast, h.phase]
  · show (s.channelStep s.i i.sampleValidIn i.iIn).acc.toInt = _
    rw [hacc, h.sum h.i h.iSum (by omega)]
  · show (s.channelStep s.q i.sampleValidIn i.qIn).acc.toInt = _
    rw [hacc, h.sum h.q h.qSum (by omega)]

/-- The last tap of a phase puts its sum out. -/
theorem Busy.out {hist : List RrcInput} {p : ℕ} {s : RrcFilter} (h : Busy hist p 8 s)
    (i : RrcInput) : presented.out s i = [phaseOut hist p] := by
  have hlast : s.macTap = LAST_TAP := BitVec.eq_of_toNat_eq h.tap
  have hdone : s.phaseDone = true := by
    rw [phaseDone, decide_eq_true h.state, decide_eq_true hlast]
    rfl
  have hvalid : (step s i).sampleValidOut = true := hdone
  have hi : (step s i).iOut = RrcChannel.sat (s.accNext s.i) := if_pos hdone
  have hq : (step s i).qOut = RrcChannel.sat (s.accNext s.q) := if_pos hdone
  have hout : presented.out s i = [((step s i).iOut, (step s i).qOut)] := if_pos hvalid
  rw [hout, hi, hq, RrcChannel.sat_eq, RrcChannel.sat_eq, h.sum h.i h.iSum (by decide),
    h.sum h.q h.qSum (by decide)]
  rfl

theorem Busy.nextPhase {hist : List RrcInput} {p : ℕ} {s : RrcFilter} (h : Busy hist p 8 s)
    (hp : p < 3) {i : RrcInput} (hi : i.sampleValidIn = false) :
    Busy hist (p + 1) 0 (s.step i) := by
  have hlast : s.macTap = LAST_TAP := BitVec.eq_of_toNat_eq h.tap
  refine ⟨h.keep hi, ?_, ?_, ?_, fun h0 => absurd h0 (Nat.lt_irrefl 0),
    fun h0 => absurd h0 (Nat.lt_irrefl 0)⟩
  · show s.macNext i = .mac
    rw [macNext, h.state]
    refine if_neg fun hend => ?_
    have hphase := h.phase
    rw [hend.1] at hphase
    exact absurd hphase (by rw [LAST_PHASE]; exact Nat.ne_of_gt hp)
  · show (if s.macState = .mac then if s.macTap = LAST_TAP then 0 else s.macTap + 1
      else (0 : BitVec 4)).toNat = 0
    rw [if_pos h.state, if_pos hlast]
    rfl
  · show (if s.macState = .mac then if s.macTap = LAST_TAP then s.phaseCnt + 1 else s.phaseCnt
      else (0 : BitVec 2)).toNat = p + 1
    rw [if_pos h.state, if_pos hlast, BitVec.toNat_add, h.phase]
    exact Nat.mod_eq_of_lt (by show p + 1 < 4; omega)

theorem Busy.done {hist : List RrcInput} {s : RrcFilter} (h : Busy hist 3 8 s) {i : RrcInput}
    (hi : i.sampleValidIn = false) : Idle hist (s.step i) := by
  refine ⟨h.keep hi, ?_⟩
  show s.macNext i = .idle
  rw [macNext, h.state]
  exact if_pos ⟨BitVec.eq_of_toNat_eq h.phase, BitVec.eq_of_toNat_eq h.tap⟩

theorem Busy.taps {hist : List RrcInput} {p t : ℕ} {s : RrcFilter} (h : Busy hist p t s)
    {is : List RrcInput} (hlen : t + is.length = 8)
    (his : ∀ i ∈ is, i.sampleValidIn = false) :
    presented.outputs s is = [] ∧ Busy hist p 8 (presented.after s is) := by
  induction is generalizing s t with
  | nil =>
    rw [List.length_nil, Nat.add_zero] at hlen
    rw [hlen] at h
    exact ⟨rfl, h⟩
  | cons i is ih =>
    rw [List.length_cons] at hlen
    obtain ⟨hout, hnext⟩ := h.next (by omega) (his i List.mem_cons_self)
    obtain ⟨houts, hend⟩ := ih hnext (by omega) fun j hj => his j (List.mem_cons_of_mem i hj)
    refine ⟨?_, hend⟩
    rw [Reader.outputs, hout]
    exact houts

/-- The nine taps of a phase. -/
theorem Busy.wholePhase {hist : List RrcInput} {p : ℕ} {s : RrcFilter} (h : Busy hist p 0 s)
    {is : List RrcInput} (hlen : is.length = 8) {j : RrcInput}
    (his : ∀ i ∈ is, i.sampleValidIn = false) (hj : j.sampleValidIn = false) :
    presented.outputs s (is ++ [j]) = [phaseOut hist p] ∧
      (p < 3 → Busy hist (p + 1) 0 (presented.after s (is ++ [j]))) ∧
      (p = 3 → Idle hist (presented.after s (is ++ [j]))) := by
  obtain ⟨houts, hend⟩ := h.taps (by omega) his
  rw [Reader.outputs_append, Reader.after_append, houts, List.nil_append, Reader.outputs,
    hend.out]
  refine ⟨rfl, fun hp => hend.nextPhase hp hj, fun hp => ?_⟩
  rw [hp] at hend
  exact hend.done hj

/-- The phases from `p` on. -/
theorem Busy.phases {hist : List RrcInput} {p n : ℕ} {s : RrcFilter} (h : Busy hist p 0 s)
    (hp : p + (n + 1) = 4) {is : List RrcInput} (hlen : is.length = 9 * (n + 1))
    (his : ∀ i ∈ is, i.sampleValidIn = false) :
    presented.outputs s is = (List.range' p (n + 1)).map (phaseOut hist) ∧
      Idle hist (presented.after s is) := by
  induction n generalizing s p is with
  | zero =>
    obtain ⟨js, j, rfl⟩ : ∃ js j, is = js ++ [j] :=
      ⟨is.take 8, is[8], by rw [List.take_append_getElem, List.take_of_length_le (by omega)]⟩
    rw [List.length_append, List.length_singleton] at hlen
    obtain ⟨hout, -, hidle⟩ := h.wholePhase (by omega)
      (fun i hi => his i (List.mem_append_left [j] hi))
      (his j (List.mem_append_right js List.mem_cons_self))
    exact ⟨hout, hidle (by omega)⟩
  | succ n ih =>
    obtain ⟨js, j, ks, rfl, hjs⟩ : ∃ js j ks, is = js ++ [j] ++ ks ∧ js.length = 8 := by
      refine ⟨is.take 8, is[8], is.drop 9, ?_, ?_⟩
      · rw [List.take_append_getElem, List.take_append_drop]
      · rw [List.length_take]
        omega
    have hfront : ∀ i ∈ js ++ [j], i.sampleValidIn = false :=
      fun i hi => his i (List.mem_append_left ks hi)
    obtain ⟨hout, hnext, -⟩ := h.wholePhase hjs
      (fun i hi => hfront i (List.mem_append_left [j] hi))
      (hfront j (List.mem_append_right js List.mem_cons_self))
    rw [List.length_append, List.length_append, List.length_singleton, hjs] at hlen
    obtain ⟨houts, hend⟩ := ih (hnext (by omega)) (by omega) (by omega)
      fun i hi => his i (List.mem_append_right _ hi)
    rw [Reader.outputs_append, hout, houts, presented.after_append s (js ++ [j])]
    exact ⟨rfl, hend⟩

/-- A symbol keeps the filter busy for 36 cycles, in which it takes no other one. -/
theorem serves :
    Serves presented (fun i : RrcInput => i.sampleValidIn) 36 phases Idle where
  idle h hi := ⟨h.silent _, h.wait hi⟩
  busy {hist s i is} h hi hlen his := by
    obtain ⟨houts, hend⟩ := (h.start hi).phases (rfl : 0 + (3 + 1) = 4) hlen his
    rw [Reader.outputs, h.silent i]
    exact ⟨houts, hend⟩

/-! The accumulators. -/

/-- No accumulator wraps at the tap at hand. -/
structure SumsExactly (s : RrcFilter) : Prop where
  i : s.i.Exact s.macTap.toNat (coeff s.phaseCnt s.macTap)
  q : s.q.Exact s.macTap.toNat (coeff s.phaseCnt s.macTap)

structure HasRoom (s : RrcFilter) : Prop where
  tap : s.macTap.toNat ≤ 8
  i : s.i.Room s.macTap.toNat
  q : s.q.Room s.macTap.toNat

theorem hasRoom_reset : HasRoom reset :=
  ⟨by decide, fun h => absurd h (by decide), fun h => absurd h (by decide)⟩

theorem HasRoom.step {s : RrcFilter} (h : HasRoom s) (i : RrcInput) : HasRoom (s.step i) := by
  have hzero : ∀ c : RrcChannel 144, c.Room (0 : BitVec 4).toNat :=
    fun c h0 => absurd h0 (by decide)
  have htap : (s.step i).macTap =
      if s.macState = .mac then if s.macTap = LAST_TAP then 0 else s.macTap + 1 else 0 := rfl
  by_cases hs : s.macState = .mac
  · by_cases hlast : s.macTap = LAST_TAP
    · rw [if_pos hs, if_pos hlast] at htap
      exact ⟨by rw [htap]; decide, by rw [htap]; exact hzero _, by rw [htap]; exact hzero _⟩
    · have hlt : s.macTap.toNat < 8 := by
        refine Nat.lt_of_le_of_ne h.tap fun heq => hlast ?_
        exact BitVec.eq_of_toNat_eq heq
      rw [if_pos hs, if_neg hlast] at htap
      have hnat : (s.step i).macTap.toNat = s.macTap.toNat + 1 := by
        rw [htap, BitVec.toNat_add]
        exact Nat.mod_eq_of_lt (by show s.macTap.toNat + 1 < 16; omega)
      refine ⟨by omega, ?_, ?_⟩
      · rw [hnat]
        exact h.i.next (by omega) (if_pos hs)
      · rw [hnat]
        exact h.q.next (by omega) (if_pos hs)
  · rw [if_neg hs] at htap
    exact ⟨by rw [htap]; decide, by rw [htap]; exact hzero _, by rw [htap]; exact hzero _⟩

theorem sumsExactly_run (is : List RrcInput) : SumsExactly (exec step reset is) := by
  have hroom : HasRoom (exec step reset is) :=
    exec_invariant HasRoom (fun s i h _ => h.step i) hasRoom_reset (along_true step reset is)
  have htap := hroom.tap
  exact ⟨hroom.i.exact (by omega) _, hroom.q.exact (by omega) _⟩

/-! Streams of symbols. -/

theorem phaseSum_reverse (is : List RrcInput) (f : RrcInput → BitVec 16) {n p : ℕ}
    (hn : n < is.length) (hp : p < 4) :
    phaseSum ((is.take (n + 1)).reverse.map f) p = direct (is.map f) (4 * n + p) := by
  have hlen : n < ((is.map f).map BitVec.toInt).length := by
    rw [List.length_map, List.length_map]
    exact hn
  have hsamples : samples (is.map f) = fun k => ((is.map f).map BitVec.toInt).getD k 0 := rfl
  rw [direct_polyphase _ _ hp, hsamples, conv_reverse _ _ _ hlen, phaseSum]
  refine Finset.sum_congr rfl fun k _ => ?_
  have hzero : (0 : ℤ) = (0 : BitVec 16).toInt := rfl
  rw [← List.map_take, ← List.map_take, ← List.map_reverse, ← List.map_reverse, hzero,
    List.getD_map]

/-- The outputs of a stream of symbols are those of the filter on the stuffed stream, phase by
phase, whatever the distances between them. -/
theorem symbols_shaped {is quiet : List RrcInput}
    (his : Apart (fun i : RrcInput => i.sampleValidIn) 36 is)
    (hquiet : ∀ i ∈ quiet, i.sampleValidIn = false) (hlen : 36 ≤ quiet.length) :
    presented.outputs reset (is ++ quiet) =
        (List.range (is.filter (·.sampleValidIn)).length).flatMap (fun n => (List.range 4).map
          fun p => (shaped (direct ((is.filter (·.sampleValidIn)).map RrcInput.iIn) (4 * n + p)),
            shaped (direct ((is.filter (·.sampleValidIn)).map RrcInput.qIn) (4 * n + p)))) ∧
      (∀ ds n p, p < 4 → direct ds (4 * n + p) =
        conv (fun k => hTap (p + 4 * k)) 9 (samples ds) n) ∧
      ∀ pre, pre <+: is ++ quiet → SumsExactly (exec step reset pre) := by
  refine ⟨?_, fun ds n p hp => direct_polyphase ds n hp, fun pre _ => sumsExactly_run pre⟩
  have hready : Idle [] reset := ⟨⟨shows_nil 9, shows_nil 9⟩, rfl⟩
  obtain ⟨hout, -⟩ := serves.outputs hready his hquiet hlen
  rw [hout, phases, recalling_outputs]
  refine List.flatMap_congr fun n hn => List.map_congr_left fun p hp => ?_
  rw [List.mem_range] at hn hp
  rw [phaseOut, phaseSum_reverse _ _ hn hp, phaseSum_reverse _ _ hn hp]

/-- Two symbols at the smallest distance. -/
def twoSymbols : List RrcInput :=
  ⟨23170, -23170, true⟩ :: List.replicate 36 ⟨0, 0, false⟩ ++ [⟨-32768, 0, true⟩]

theorem twoSymbols_apart : Apart (fun i : RrcInput => i.sampleValidIn) 36 twoSymbols := by
  decide

theorem symbols_shaped_twoSymbols :
    presented.outputs reset (twoSymbols ++ List.replicate 36 ⟨0, 0, false⟩) =
        (List.range (twoSymbols.filter (·.sampleValidIn)).length).flatMap (fun n =>
          (List.range 4).map fun p =>
            (shaped (direct ((twoSymbols.filter (·.sampleValidIn)).map RrcInput.iIn) (4 * n + p)),
              shaped (direct ((twoSymbols.filter (·.sampleValidIn)).map RrcInput.qIn)
                (4 * n + p)))) ∧
      (∀ ds n p, p < 4 → direct ds (4 * n + p) =
        conv (fun k => hTap (p + 4 * k)) 9 (samples ds) n) ∧
      ∀ pre, pre <+: twoSymbols ++ List.replicate 36 ⟨0, 0, false⟩ →
        SumsExactly (exec step reset pre) :=
  symbols_shaped twoSymbols_apart (fun i hi => by rw [List.eq_of_mem_replicate hi])
    (by rw [List.length_replicate])

end RrcFilter
end TetraBs.Phy
