import TetraBs.Lib.Cic
import TetraBs.Lib.Run
import TetraBs.Lib.Signed
import TetraBs.Phy.RrcFilter

/-! The CIC decimator of `tetra_rx_frontend`, behind its FIFO: five integrators, every 64th value of
the last one through five combs, a slice of the result saturated to 16 bits. One step is one rising
clock edge. -/
namespace TetraBs.Phy
open PowerSeries TetraBs.Cic TetraBs.Pacing TetraBs.Run TetraBs.Serial TetraBs.Signed

structure RxInput where
  iFifo : BitVec 16
  qFifo : BitVec 16
  inValid : Bool
deriving DecidableEq

/-- The five numbered registers of the source are functions of the stage. -/
structure CicChannel where
  int : Fin 5 → BitVec 46 := fun _ => 0
  combZ1 : Fin 5 → BitVec 46 := fun _ => 0
  cicOut : BitVec 16 := 0

namespace CicChannel

def integrate (c : CicChannel) (x : BitVec 16) (k : Fin 5) : BitVec 46 :=
  c.int k + if k.val = 0 then x.signExtend 46 else c.int (k - 1)

/-- The input of comb stage `k + 1`, which is the output of stage `k`. -/
def comb (c : CicChannel) : ℕ → BitVec 46
  | 0 => c.int 4
  | k + 1 => comb c k - c.combZ1 (Fin.ofNat 5 k)

/-- Bits 45 to 30 in loopback, else bits 45 to 24 saturated. -/
def cicSat (loopbackEn : Bool) (x : BitVec 46) : BitVec 16 :=
  if loopbackEn then x.extractLsb' 30 16 else saturate 16 (x.extractLsb' 24 22)

def step (loopbackEn : Bool) (c : CicChannel) (inValid strobe : Bool) (x : BitVec 16) :
    CicChannel where
  int k := if inValid then c.integrate x k else c.int k
  combZ1 k := if strobe then c.comb k else c.combZ1 k
  cicOut := if strobe then cicSat loopbackEn (c.comb 5) else c.cicOut

end CicChannel

structure RxCic where
  i : CicChannel := {}
  q : CicChannel := {}
  decCnt : BitVec 6 := 0
  cicStrobe : Bool := false
  cicValid : Bool := false

namespace RxCic

def reset : RxCic := {}

def step (loopbackEn : Bool) (s : RxCic) (i : RxInput) : RxCic where
  i := s.i.step loopbackEn i.inValid s.cicStrobe i.iFifo
  q := s.q.step loopbackEn i.inValid s.cicStrobe i.qFifo
  decCnt := if i.inValid then if s.decCnt = 63 then 0 else s.decCnt + 1 else s.decCnt
  cicStrobe := i.inValid && s.decCnt = 63
  cicValid := s.cicStrobe

/-- What the RRC filter sees in a cycle. -/
def shown (s : RxCic) : RrcInput := ⟨s.i.cicOut, s.q.cicOut, s.cicValid⟩

def stream (loopbackEn : Bool) : RxCic → List RxInput → List RrcInput
  | _, [] => []
  | s, i :: is => s.shown :: stream loopbackEn (s.step loopbackEn i) is

end RxCic

/-! The decimator as a sequence. -/

/-- The combs on every 64th value of the last integrator. -/
def combSeq (x : ℕ → BitVec 46) : ℕ → ℕ → BitVec 46
  | 0, n => integrals x (64 * n) 4
  | _ + 1, 0 => 0
  | k + 1, n + 1 => combSeq x k (n + 1) - combSeq x k n

theorem combSeq_start (x : ℕ → BitVec 46) (k : ℕ) : combSeq x k 0 = 0 := by
  cases k with
  | zero => rfl
  | succ k => rfl

theorem combSeq_series (x : ℕ → BitVec 46) (k : ℕ) :
    mk (combSeq x k) = (1 - X) ^ k * decimate 64 (integralSeries x 5) := by
  induction k with
  | zero =>
    ext n
    rw [pow_zero, one_mul, decimate, coeff_mk, coeff_mk, coeff_integralSeries, combSeq]
  | succ k ih =>
    rw [pow_succ', mul_assoc, ← ih]
    ext n
    rw [coeff_mk, sub_mul, one_mul, map_sub, coeff_mk]
    cases n with
    | zero => rw [coeff_zero_X_mul, combSeq_start, combSeq_start, sub_zero]
    | succ n => rw [coeff_succ_X_mul, coeff_mk, combSeq]

/-- The `n`-th value of the decimator: five boxcars of 64 over all samples, five samples late. -/
noncomputable def cicSum (x : ℕ → ℤ) (n : ℕ) : ℤ := coeff (64 * n) (boxcar 64 ^ 5 * X ^ 5 * mk x)

theorem combSeq_eq (x : ℕ → ℤ) (n : ℕ) :
    combSeq (fun k => (x k : BitVec 46)) 5 n = (cicSum x n : BitVec 46) := by
  have hmap : (boxcar 64 ^ 5 * X ^ 5 * mk fun k => ((x k : ℤ) : BitVec 46)) =
      PowerSeries.map (Int.castRingHom (BitVec 46)) (boxcar 64 ^ 5 * X ^ 5 * mk x) := by
    rw [map_mul, map_mul, map_pow, map_pow, map_X, boxcar, boxcar, map_sum]
    simp only [map_pow, map_X]
    congr 1
  have hseries := combSeq_series (fun k => (x k : BitVec 46)) 5
  rw [← decimate_combs (by decide), combed_integrators (integralSeries_step _), integralSeries,
    hmap]
    at hseries
  have hcoeff := congrArg (coeff n) hseries
  rw [coeff_mk, decimate, coeff_mk, coeff_map] at hcoeff
  exact hcoeff

/-- No value of the decimator leaves its 46 bits. -/
theorem cicSum_fits {x : ℕ → ℤ} (hx : ∀ n, Signed.Fits 16 (x n)) (n : ℕ) :
    Signed.Fits 46 (cicSum x n) := by
  have hsamples : Between (-2 ^ 15) (2 ^ 15 - 1) (mk x) := by
    intro k
    rw [coeff_mk]
    obtain ⟨hlo, hhi⟩ := hx k
    norm_num at hlo hhi ⊢
    omega
  have hsum := ((hsamples.delay (by norm_num) (by norm_num) 5).boxcars (by norm_num) (by norm_num)
    64 5) (64 * n)
  rw [← mul_assoc] at hsum
  norm_num at hsum
  exact ⟨by norm_num [cicSum]; omega, by norm_num [cicSum]; omega⟩

/-! The registers in a run. -/

namespace CicChannel

/-- What is put out for a value of the decimator. -/
def value (loopbackEn : Bool) (y : ℤ) : ℤ :=
  if loopbackEn then y / 2 ^ 30 else clamp 16 (y / 2 ^ 24)

theorem value_fits (loopbackEn : Bool) {y : ℤ} (hy : Signed.Fits 46 y) :
    Signed.Fits 16 (value loopbackEn y) := by
  cases loopbackEn with
  | false => exact fits_clamp (by decide) _
  | true => exact Signed.Fits.div (k := 30) hy (by decide)

theorem cicSat_toInt (loopbackEn : Bool) (x : BitVec 46) :
    (cicSat loopbackEn x).toInt = value loopbackEn x.toInt := by
  have hunity : (x.extractLsb' 30 16).toInt = x.toInt / 2 ^ 30 := toInt_top rfl (by decide)
  have hwide : (x.extractLsb' 24 22).toInt = x.toInt / 2 ^ 24 := toInt_top rfl (by decide)
  rw [cicSat, value]
  cases loopbackEn with
  | false =>
    rw [if_neg Bool.false_ne_true, if_neg Bool.false_ne_true,
      toInt_saturate _ (by decide) (by decide), hwide]
  | true => rw [if_pos rfl, if_pos rfl, hunity]

/-- `n` samples are in the integrators and `m` values went through the combs. -/
structure Holds (x : ℕ → ℤ) (n m : ℕ) (c : CicChannel) : Prop where
  int (k : Fin 5) : c.int k = integrals (fun j => (x j : BitVec 46)) n k
  combZ1 (k : Fin 5) : c.combZ1 k = combSeq (fun j => (x j : BitVec 46)) k m

variable {x : ℕ → ℤ} {n m : ℕ} {c : CicChannel}

theorem holds_reset : Holds x 0 0 {} where
  int k := by rw [integrals]
  combZ1 k := by rw [combSeq_start]

theorem signExtend_eq {d : BitVec 16} {y : ℤ} (hd : d.toInt = y) :
    d.signExtend 46 = (y : BitVec 46) := by
  have hfits : Signed.Fits 46 d.toInt := (fits_toInt d).mono (by decide)
  apply BitVec.eq_of_toInt_eq
  rw [toInt_signExtend _ (by decide), ← hd, BitVec.toInt_intCast, hfits.bmod]

theorem Holds.integrate (h : Holds x n m c) {d : BitVec 16} (hd : d.toInt = x n) (k : Fin 5) :
    c.integrate d k = integrals (fun j => (x j : BitVec 46)) (n + 1) k := by
  rw [CicChannel.integrate, h.int]
  by_cases hk : k.val = 0
  · rw [if_pos hk, signExtend_eq hd, hk, integrals]
  · have hpred : (k - 1).val = k.val - 1 := Fin.val_sub_one_of_ne_zero fun h0 => hk (h0 ▸ rfl)
    obtain ⟨j, hj⟩ : ∃ j, k.val = j + 1 := ⟨k.val - 1, by omega⟩
    rw [if_neg hk, h.int, hpred, hj, integrals, Nat.add_sub_cancel]

theorem Holds.comb (h : Holds x n m c) (hn : n = 64 * (m + 1)) {k : ℕ} (hk : k ≤ 5) :
    c.comb k = combSeq (fun j => (x j : BitVec 46)) k (m + 1) := by
  induction k with
  | zero =>
    rw [CicChannel.comb, h.int, hn]
    rfl
  | succ k ih =>
    have hval : (Fin.ofNat 5 k).val = k := Nat.mod_eq_of_lt hk
    rw [CicChannel.comb, ih (by omega), h.combZ1, hval, combSeq]

theorem Holds.step (h : Holds x n m c) (loopbackEn : Bool) {inValid strobe : Bool} {d : BitVec 16}
    (hd : inValid = true → d.toInt = x n) (hn : strobe = true → n = 64 * (m + 1)) :
    Holds x (n + inValid.toNat) (m + strobe.toNat) (c.step loopbackEn inValid strobe d) := by
  refine ⟨fun k => ?_, fun k => ?_⟩
  · show (if inValid then c.integrate d k else c.int k) = _
    cases inValid with
    | false => exact h.int k
    | true => exact h.integrate (hd rfl) k
  · show (if strobe then c.comb k else c.combZ1 k) = _
    cases strobe with
    | false => exact h.combZ1 k
    | true => exact h.comb (hn rfl) (by omega)

theorem Holds.cicOut (h : Holds x n m c) (loopbackEn : Bool) (inValid : Bool) (d : BitVec 16)
    (hx : ∀ k, Signed.Fits 16 (x k)) (hn : n = 64 * (m + 1)) :
    (c.step loopbackEn inValid true d).cicOut.toInt = value loopbackEn (cicSum x (m + 1)) := by
  show (cicSat loopbackEn (c.comb 5)).toInt = _
  rw [cicSat_toInt, h.comb hn (le_refl 5), combSeq_eq, BitVec.toInt_intCast,
    (cicSum_fits hx _).bmod]

end CicChannel

namespace RxCic
variable {loopbackEn : Bool} {ws : List RxInput} {sent : List RrcInput} {n : ℕ} {s : RxCic}
  {i : RxInput}

/-- What is put out when `64 * (m + 1)` samples are in. -/
noncomputable def result (loopbackEn : Bool) (xs : List (BitVec 16)) (m : ℕ) : ℤ :=
  CicChannel.value loopbackEn (cicSum (RrcFilter.samples xs) (m + 1))

theorem samples_fits (xs : List (BitVec 16)) (k : ℕ) : Signed.Fits 16 (RrcFilter.samples xs k) := by
  have hzero : (0 : ℤ) = (0 : BitVec 16).toInt := rfl
  rw [RrcFilter.samples, hzero, List.getD_map]
  exact fits_toInt _

theorem result_fits (xs : List (BitVec 16)) (m : ℕ) : Signed.Fits 16 (result loopbackEn xs m) :=
  CicChannel.value_fits _ (cicSum_fits (samples_fits xs) _)

noncomputable def resultInput (loopbackEn : Bool) (ws : List RxInput) (m : ℕ) : RrcInput :=
  ⟨BitVec.ofInt 16 (result loopbackEn (ws.map RxInput.iFifo) m),
    BitVec.ofInt 16 (result loopbackEn (ws.map RxInput.qFifo) m), true⟩

/-- What `cic_valid_sys` presents in a cycle. -/
def presented (loopbackEn : Bool) : Reader RxCic RxInput RrcInput :=
  ⟨step loopbackEn, fun s _ => if s.cicValid then [s.shown] else []⟩

/-- Of the samples `ws`, `n` are in, and what they make is sent or under way. -/
structure Holds (loopbackEn : Bool) (ws : List RxInput) (sent : List RrcInput) (n : ℕ)
    (s : RxCic) : Prop where
  i : s.i.Holds (RrcFilter.samples (ws.map RxInput.iFifo)) n (sent.length + s.cicValid.toNat)
  q : s.q.Holds (RrcFilter.samples (ws.map RxInput.qFifo)) n (sent.length + s.cicValid.toNat)
  count : n = 64 * (sent.length + s.cicValid.toNat + s.cicStrobe.toNat) + s.decCnt.toNat
  zero : s.cicStrobe = true → s.decCnt = 0
  results : sent = (List.range sent.length).map (resultInput loopbackEn ws)
  shown : s.cicValid = true → s.shown = resultInput loopbackEn ws sent.length

theorem holds_reset : Holds loopbackEn ws [] 0 reset :=
  ⟨CicChannel.holds_reset, CicChannel.holds_reset, rfl, (fun h => nomatch h), rfl,
    (fun h => nomatch h)⟩

theorem samples_of_getElem? (hi : ws[n]? = some i) (f : RxInput → BitVec 16) :
    (f i).toInt = RrcFilter.samples (ws.map f) n := by
  rw [RrcFilter.samples, List.getD_eq_getElem?_getD, List.getElem?_map, List.getElem?_map, hi]
  rfl

/-- The counter and the strobe count the samples together. -/
theorem step_count (loopbackEn : Bool) (s : RxCic) (i : RxInput) :
    64 * (s.step loopbackEn i).cicStrobe.toNat + (s.step loopbackEn i).decCnt.toNat =
      s.decCnt.toNat + i.inValid.toNat := by
  show 64 * (i.inValid && decide (s.decCnt = 63)).toNat +
    (if i.inValid then if s.decCnt = 63 then 0 else s.decCnt + 1 else s.decCnt).toNat = _
  cases i.inValid with
  | false => exact Nat.zero_add _
  | true =>
    rw [if_pos rfl, Bool.true_and]
    by_cases hlast : s.decCnt = 63
    · rw [if_pos hlast, decide_eq_true hlast, hlast]
      rfl
    · have hlt : s.decCnt.toNat + 1 < 64 := by
        have hne : s.decCnt.toNat ≠ 63 := fun h => hlast (BitVec.eq_of_toNat_eq h)
        have := s.decCnt.isLt
        omega
      rw [if_neg hlast, decide_eq_false hlast, BitVec.toNat_add]
      exact (Nat.zero_add _).trans (Nat.mod_eq_of_lt hlt)

theorem step_zero (s : RxCic) (i : RxInput) (h : (s.step loopbackEn i).cicStrobe = true) :
    (s.step loopbackEn i).decCnt = 0 := by
  have hcount := step_count loopbackEn s i
  have hlt := s.decCnt.isLt
  have hvalid := Bool.toNat_le i.inValid
  rw [h, Bool.toNat_true] at hcount
  have hzero : (s.step loopbackEn i).decCnt.toNat = 0 := by omega
  exact BitVec.eq_of_toNat_eq hzero

theorem Holds.out_length (loopbackEn : Bool) (sent : List RrcInput) (s : RxCic) (i : RxInput) :
    (sent ++ (presented loopbackEn).out s i).length = sent.length + s.cicValid.toNat := by
  rw [List.length_append]
  show sent.length + (if s.cicValid then [s.shown] else []).length = _
  cases s.cicValid with
  | false => rfl
  | true => rfl

theorem Holds.step (h : Holds loopbackEn ws sent n s) (hi : i.inValid = true → ws[n]? = some i) :
    Holds loopbackEn ws (sent ++ (presented loopbackEn).out s i) (n + i.inValid.toNat)
      (s.step loopbackEn i) := by
  have hlen := Holds.out_length loopbackEn sent s i
  have hn : s.cicStrobe = true → n = 64 * (sent.length + s.cicValid.toNat + 1) := by
    intro hstrobe
    have hcount := h.count
    rw [hstrobe, h.zero hstrobe, Bool.toNat_true] at hcount
    exact hcount
  have hvalid : (s.step loopbackEn i).cicValid = s.cicStrobe := rfl
  refine ⟨?_, ?_, ?_, step_zero s i, ?_, ?_⟩
  · rw [hlen, hvalid]
    exact h.i.step loopbackEn (fun hv => samples_of_getElem? (hi hv) _) hn
  · rw [hlen, hvalid]
    exact h.q.step loopbackEn (fun hv => samples_of_getElem? (hi hv) _) hn
  · have hcount := h.count
    have hstep := step_count loopbackEn s i
    rw [hlen, hvalid]
    omega
  · rw [hlen]
    cases hv : s.cicValid with
    | false =>
      have hout : (presented loopbackEn).out s i = [] := if_neg (Bool.eq_false_iff.1 hv)
      rw [hout, List.append_nil]
      exact h.results
    | true =>
      have hout : (presented loopbackEn).out s i = [s.shown] := if_pos hv
      rw [hout, h.shown hv, Bool.toNat_true, List.range_succ, List.map_append, ← h.results]
      rfl
  · intro hstrobe
    rw [hvalid] at hstrobe
    rw [hlen]
    have hsat : ∀ {c : CicChannel} {d : BitVec 16} {xs : List (BitVec 16)},
        c.Holds (RrcFilter.samples xs) n (sent.length + s.cicValid.toNat) →
          (c.step loopbackEn i.inValid s.cicStrobe d).cicOut =
            BitVec.ofInt 16 (result loopbackEn xs (sent.length + s.cicValid.toNat)) := by
      intro c d xs hc
      apply BitVec.eq_of_toInt_eq
      rw [toInt_ofInt (result_fits _ _), hstrobe]
      exact hc.cicOut loopbackEn i.inValid d (samples_fits xs) (hn hstrobe)
    show RrcInput.mk (s.i.step loopbackEn i.inValid s.cicStrobe i.iFifo).cicOut
      (s.q.step loopbackEn i.inValid s.cicStrobe i.qFifo).cicOut s.cicStrobe = _
    rw [hsat h.i, hsat h.q, hstrobe]
    rfl

theorem holds_run (loopbackEn : Bool) {is pre : List RxInput} (hpre : pre <+: is) :
    Holds loopbackEn (is.filter (·.inValid)) ((presented loopbackEn).outputs reset pre)
      (pre.filter (·.inValid)).length ((presented loopbackEn).after reset pre) := by
  induction pre using List.reverseRecOn with
  | nil => exact holds_reset
  | append_singleton pre i ih =>
    have hi : i.inValid = true →
        (is.filter (·.inValid))[(pre.filter (·.inValid)).length]? = some i := by
      intro hv
      obtain ⟨post, rfl⟩ := hpre
      rw [List.append_assoc, List.filter_append, List.getElem?_append_right (le_refl _),
        Nat.sub_self, List.singleton_append, List.filter_cons_of_pos hv]
      rfl
    have hnext := (ih ((List.prefix_append pre [i]).trans hpre)).step hi
    have hcount : ((pre ++ [i]).filter (·.inValid)).length =
        (pre.filter (·.inValid)).length + i.inValid.toNat := by
      rw [List.filter_append, List.length_append]
      cases hv : i.inValid with
      | false => rw [List.filter_cons_of_neg (by rw [hv]; exact Bool.false_ne_true)]; rfl
      | true => rw [List.filter_cons_of_pos hv]; rfl
    rw [Reader.outputs_append, Reader.after_append, hcount]
    have hsingle : (presented loopbackEn).outputs ((presented loopbackEn).after reset pre) [i] =
        (presented loopbackEn).out ((presented loopbackEn).after reset pre) i := List.append_nil _
    rw [hsingle]
    exact hnext

/-- Two cycles after the last sample nothing is under way. -/
theorem settled (loopbackEn : Bool) (is : List RxInput) {a b : RxInput} (ha : a.inValid = false)
    (hb : b.inValid = false) :
    ((presented loopbackEn).after reset (is ++ [a] ++ [b])).cicStrobe = false ∧
      ((presented loopbackEn).after reset (is ++ [a] ++ [b])).cicValid = false := by
  have hquiet : ∀ (s : RxCic) (i : RxInput), i.inValid = false →
      (s.step loopbackEn i).cicStrobe = false := by
    intro s i hi
    show (i.inValid && decide (s.decCnt = 63)) = false
    rw [hi, Bool.false_and]
  rw [Reader.after_append, Reader.after_append]
  exact ⟨hquiet _ b hb, hquiet _ a ha⟩

/-- Every 64 samples make one value. -/
theorem outputs_settled (loopbackEn : Bool) (is : List RxInput) {a b : RxInput}
    (ha : a.inValid = false) (hb : b.inValid = false) :
    (presented loopbackEn).outputs reset (is ++ [a] ++ [b]) =
      (List.range ((is.filter (·.inValid)).length / 64)).map
        (resultInput loopbackEn (is.filter (·.inValid))) := by
  have hfilter : (is ++ [a] ++ [b]).filter (·.inValid) = is.filter (·.inValid) := by
    rw [List.filter_append, List.filter_append, List.filter_singleton, List.filter_singleton,
      ha, hb]
    exact (List.append_nil _).trans (List.append_nil _)
  have hholds := holds_run loopbackEn (List.prefix_refl (is ++ [a] ++ [b]))
  rw [hfilter] at hholds
  obtain ⟨hstrobe, hvalid⟩ := settled loopbackEn is ha hb
  have hcount := hholds.count
  rw [hstrobe, hvalid, Bool.toNat_false] at hcount
  have hlt := ((presented loopbackEn).after reset (is ++ [a] ++ [b])).decCnt.isLt
  have hlen : ((presented loopbackEn).outputs reset (is ++ [a] ++ [b])).length =
      (is.filter (·.inValid)).length / 64 := by omega
  have hresults := hholds.results
  rw [hlen] at hresults
  exact hresults

/-! What the RRC filter is fed. -/

theorem stream_append (s : RxCic) (is js : List RxInput) :
    stream loopbackEn s (is ++ js) =
      stream loopbackEn s is ++ stream loopbackEn ((presented loopbackEn).after s is) js := by
  induction is generalizing s with
  | nil => rfl
  | cons i is ih => exact congrArg (List.cons s.shown) (ih (s.step loopbackEn i))

theorem stream_length (s : RxCic) (is : List RxInput) :
    (stream loopbackEn s is).length = is.length := by
  induction is generalizing s with
  | nil => rfl
  | cons i is ih => exact congrArg (· + 1) (ih (s.step loopbackEn i))

theorem stream_filter (s : RxCic) (is : List RxInput) :
    (stream loopbackEn s is).filter (·.sampleValidIn) = (presented loopbackEn).outputs s is := by
  induction is generalizing s with
  | nil => rfl
  | cons i is ih =>
    rw [stream, List.filter_cons, ih]
    show _ = (if s.cicValid then [s.shown] else []) ++ _
    cases hv : s.cicValid with
    | false => rw [if_neg (by rw [shown, hv]; exact Bool.false_ne_true)]; rfl
    | true => rw [if_pos (by rw [shown, hv])]; rfl

theorem shown_step (s : RxCic) (i : RxInput) :
    (s.step loopbackEn i).shown.sampleValidIn = s.cicStrobe := rfl

/-- While the counter is below 63 no sample makes a strobe. -/
theorem stream_quiet {s : RxCic} (hs : s.cicStrobe = false) {k : ℕ}
    (hk : s.decCnt.toNat + k ≤ 63) (i : RxInput) (is : List RxInput) :
    ∀ j ∈ (stream loopbackEn (s.step loopbackEn i) is).take (k + 1), j.sampleValidIn = false := by
  induction k generalizing s i is with
  | zero =>
    cases is with
    | nil => exact fun j hj => nomatch hj
    | cons i' is =>
      rw [stream, Nat.zero_add, List.take_succ_cons, List.take_zero, List.forall_mem_singleton,
        shown_step]
      exact hs
  | succ k ih =>
    cases is with
    | nil => exact fun j hj => nomatch hj
    | cons i' is =>
      have hne : ¬s.decCnt = 63 := by
        intro heq
        rw [heq] at hk
        exact absurd hk (by show ¬63 + (k + 1) ≤ 63; omega)
      have hstrobe : (s.step loopbackEn i).cicStrobe = false := by
        show (i.inValid && decide (s.decCnt = 63)) = false
        rw [decide_eq_false hne, Bool.and_false]
      have hcount := step_count loopbackEn s i
      have hvalid := Bool.toNat_le i.inValid
      rw [stream, List.take_succ_cons, List.forall_mem_cons, shown_step]
      exact ⟨hs, ih hstrobe (by omega) i' is⟩

/-- What the strobes leave in the counter. -/
structure Counts (s : RxCic) : Prop where
  strobe : s.cicStrobe = true → s.decCnt = 0
  valid : s.cicValid = true → s.cicStrobe = false ∧ s.decCnt.toNat ≤ 1

theorem Counts.step {s : RxCic} (h : Counts s) (i : RxInput) : Counts (s.step loopbackEn i) := by
  refine ⟨step_zero s i, fun hv => ?_⟩
  have hcount := step_count loopbackEn s i
  have hzero := h.strobe hv
  have hvalid := Bool.toNat_le i.inValid
  have hnat : s.decCnt.toNat = 0 := congrArg BitVec.toNat hzero
  cases hs : (s.step loopbackEn i).cicStrobe with
  | false =>
    rw [hs, Bool.toNat_false] at hcount
    exact ⟨rfl, by omega⟩
  | true =>
    rw [hs, Bool.toNat_true] at hcount
    omega

/-- Two values of the decimator are at least 64 cycles apart. -/
theorem stream_apart (loopbackEn : Bool) {s : RxCic} (h : Counts s) (is : List RxInput) :
    Apart (fun i : RrcInput => i.sampleValidIn) 63 (stream loopbackEn s is) := by
  induction is generalizing s with
  | nil => trivial
  | cons i is ih =>
    refine ⟨fun hv => ?_, ih (h.step i)⟩
    obtain ⟨hstrobe, hcnt⟩ := h.valid hv
    exact stream_quiet hstrobe (k := 62) (by omega) i is

/-- Without samples nothing is sent once the last value is. -/
theorem stream_idle {s : RxCic} (hstrobe : s.cicStrobe = false) (hvalid : s.cicValid = false)
    {is : List RxInput} (his : ∀ i ∈ is, i.inValid = false) :
    ∀ j ∈ stream loopbackEn s is, j.sampleValidIn = false := by
  induction is generalizing s with
  | nil => exact fun j hj => nomatch hj
  | cons i is ih =>
    rw [stream, List.forall_mem_cons]
    refine ⟨hvalid, ih ?_ hstrobe fun j hj => his j (List.mem_cons_of_mem i hj)⟩
    show (i.inValid && decide (s.decCnt = 63)) = false
    rw [his i List.mem_cons_self, Bool.false_and]

end RxCic

end TetraBs.Phy
