import TetraBs.Lmac.RcpcEncoder
import TetraBs.Lmac.ViterbiDecoder

/-! The mother code of `tetra_rcpc_encoder` through `tetra_viterbi_decoder`, without noise. -/
namespace TetraBs.Lmac
open TetraBs.Run TetraBs.Serial TetraBs.Viterbi SoftMetric

/-! What the encoder puts out. -/

namespace Rcpc

/-- The groups of `coded_bits` in a run. -/
def mother : Reader State Input (BitVec 4) where
  next := step
  out s i := if (step s i).codedValid then [(step s i).codedBits] else []

/-- `{g4, g3, g2, g1}`. -/
def word (sr : BitVec 4) (b : Bool) : BitVec 4 :=
  pair (ViterbiDecoder.output 3 sr b) (ViterbiDecoder.output 2 sr b) ++
    pair (ViterbiDecoder.output 1 sr b) (ViterbiDecoder.output 0 sr b)

/-- The groups of a bit sequence. -/
def words : BitVec 4 → List Bool → List (BitVec 4)
  | _, [] => []
  | sr, b :: bs => word sr b :: words (ViterbiDecoder.next sr b) bs

/-- Between two blocks. -/
structure Idle (s : State) : Prop where
  sr : s.sr = 0
  flushActive : s.flushActive = false

/-- The bits come, some cycles apart or not, then one cycle of `flush`; what is on the other inputs
during the four cycles of the tail does not matter. -/
structure Flushed (bits : List Bool) (js : List Input) : Prop where
  parts : ∃ before pulse tail after, js = before ++ pulse :: tail ++ after ∧
    (∀ j ∈ before, j.flush = false) ∧
    (before.filter (·.dataValid)).map (·.dataIn) = bits ∧
    (pulse.flush = true ∧ pulse.dataValid = false) ∧
    tail.length = 4 ∧
    ∀ j ∈ after, j.flush = false ∧ j.dataValid = false

theorem word_getLsbD (sr : BitVec 4) (b : Bool) {g : Nat} (hg : g < 4) :
    (word sr b).getLsbD g = ViterbiDecoder.output g sr b := by
  match g, hg with
  | 0, _ =>
    have h : ∀ sr b, (word sr b).getLsbD 0 = ViterbiDecoder.output 0 sr b := by decide
    exact h sr b
  | 1, _ =>
    have h : ∀ sr b, (word sr b).getLsbD 1 = ViterbiDecoder.output 1 sr b := by decide
    exact h sr b
  | 2, _ =>
    have h : ∀ sr b, (word sr b).getLsbD 2 = ViterbiDecoder.output 2 sr b := by decide
    exact h sr b
  | 3, _ =>
    have h : ∀ sr b, (word sr b).getLsbD 3 = ViterbiDecoder.output 3 sr b := by decide
    exact h sr b

theorem words_length (sr : BitVec 4) (bs : List Bool) : (words sr bs).length = bs.length := by
  induction bs generalizing sr with
  | nil => rfl
  | cons b bs ih => rw [words, List.length_cons, List.length_cons, ih]

theorem step_sr (s : State) (i : Input) (he : enableEnc s i = true) :
    (step s i).sr = ViterbiDecoder.next s.sr (dataInEff s i) := by
  have hcons : ∀ (sr : BitVec 4) (b : Bool),
      BitVec.cons b (sr.extractLsb' 1 3) = ViterbiDecoder.next sr b := by decide
  have hsr : (step s i).sr = BitVec.cons (dataInEff s i) (s.sr.extractLsb' 1 3) := if_pos he
  rw [hsr]
  exact hcons _ _

theorem mother_out (s : State) (i : Input) (he : enableEnc s i = true) :
    mother.out s i = [word s.sr (dataInEff s i)] := by
  have hout : mother.out s i = [(step s i).codedBits] := if_pos he
  have hbits : (step s i).codedBits = word s.sr (dataInEff s i) := if_pos he
  rw [hout, hbits]

/-- The groups are those of the bits that enter the shift register. -/
theorem mother_outputs (s : State) (js : List Input) :
    mother.outputs s js = words s.sr (entered.outputs s js) := by
  induction js generalizing s with
  | nil => rfl
  | cons j js ih =>
    rw [Reader.outputs, Reader.outputs]
    have hnext : mother.next s j = step s j := rfl
    have hnext' : entered.next s j = step s j := rfl
    rw [hnext, hnext', ih]
    cases he : enableEnc s j with
    | false =>
      have hidle : ¬enableEnc s j = true := by rw [he]; exact Bool.false_ne_true
      have hsr : (step s j).sr = s.sr := if_neg hidle
      have hout : mother.out s j = [] := if_neg hidle
      have hentered : entered.out s j = [] := if_neg hidle
      rw [hsr, hout, hentered]
      rfl
    | true =>
      have hentered : entered.out s j = [dataInEff s j] := if_pos he
      rw [mother_out s j he, hentered, step_sr s j he]
      rfl

/-- What the shift register holds in the end. -/
theorem after_sr (s : State) (js : List Input) :
    (mother.after s js).sr = (entered.outputs s js).foldl ViterbiDecoder.next s.sr := by
  induction js generalizing s with
  | nil => rfl
  | cons j js ih =>
    rw [Reader.after, Reader.outputs, List.foldl_append]
    have hnext : mother.next s j = step s j := rfl
    have hnext' : entered.next s j = step s j := rfl
    rw [hnext, hnext', ih]
    cases he : enableEnc s j with
    | false =>
      have hidle : ¬enableEnc s j = true := by rw [he]; exact Bool.false_ne_true
      have hsr : (step s j).sr = s.sr := if_neg hidle
      have hentered : entered.out s j = [] := if_neg hidle
      rw [hsr, hentered]
      rfl
    | true =>
      have hentered : entered.out s j = [dataInEff s j] := if_pos he
      rw [step_sr s j he, hentered]
      rfl

theorem entered_before {s : State} (hs : s.flushActive = false) {js : List Input}
    (h : ∀ j ∈ js, j.flush = false) :
    entered.outputs s js = (js.filter (·.dataValid)).map (·.dataIn) ∧
      (entered.after s js).flushActive = false := by
  induction js generalizing s with
  | nil => exact ⟨rfl, hs⟩
  | cons j js ih =>
    have hj := h j List.mem_cons_self
    have hstep : (step s j).flushActive = false := by simp [step, hs, hj]
    obtain ⟨hout, hend⟩ := ih hstep fun i hi => h i (List.mem_cons_of_mem _ hi)
    have hnext : entered.next s j = step s j := rfl
    rw [Reader.outputs, Reader.after, hnext, hout]
    refine ⟨?_, hend⟩
    cases hv : j.dataValid with
    | true => simp [entered, enableEnc, dataInEff, hs, hv]
    | false => simp [entered, enableEnc, hs, hv]

/-- The four cycles after a pulse of `flush` bring four zeros in. -/
theorem entered_tail {s : State} (hs : s.flushActive = true) (hcnt : s.flushCnt = 0)
    {js : List Input} (hlen : js.length = 4) :
    entered.outputs s js = [false, false, false, false] ∧
      (entered.after s js).flushActive = false := by
  match js, hlen with
  | [a, b, c, d], _ =>
    have hone : ∀ (t : State) (j : Input), t.flushActive = true →
        entered.out t j = [false] ∧ (step t j).flushCnt = t.flushCnt + 1 ∧
          (step t j).flushActive = !decide (t.flushCnt = TAIL_LAST) := by
      intro t j ht
      simp [entered, enableEnc, dataInEff, step, ht]
    obtain ⟨ha, hca, hfa⟩ := hone s a hs
    rw [hcnt] at hca hfa
    obtain ⟨hb, hcb, hfb⟩ := hone (step s a) b hfa
    rw [hca] at hcb hfb
    obtain ⟨hc, hcc, hfc⟩ := hone (step (step s a) b) c hfb
    rw [hcb] at hcc hfc
    obtain ⟨hd, hcd, hfd⟩ := hone (step (step (step s a) b) c) d hfc
    rw [hcc] at hcd hfd
    have hout : entered.outputs s [a, b, c, d] = entered.out s a ++ (entered.out (step s a) b ++
        (entered.out (step (step s a) b) c ++
          (entered.out (step (step (step s a) b) c) d ++ []))) := rfl
    rw [hout, ha, hb, hc, hd]
    exact ⟨rfl, hfd⟩

theorem entered_after {s : State} (hs : s.flushActive = false) {js : List Input}
    (h : ∀ j ∈ js, j.flush = false ∧ j.dataValid = false) :
    entered.outputs s js = [] ∧ (entered.after s js).flushActive = false := by
  obtain ⟨hout, hend⟩ := entered_before hs fun j hj => (h j hj).1
  have hnone : js.filter (·.dataValid) = [] := by
    rw [List.filter_eq_nil_iff]
    intro j hj
    rw [(h j hj).2]
    exact Bool.false_ne_true
  rw [hnone] at hout
  exact ⟨hout, hend⟩

/-- A flushed block brings in its bits and four zeros, and leaves the encoder idle. -/
theorem Flushed.entered {bits : List Bool} {js : List Input} (h : Flushed bits js) {s : State}
    (hs : s.flushActive = false) :
    Rcpc.entered.outputs s js = bits ++ [false, false, false, false] ∧
      (Rcpc.entered.after s js).flushActive = false := by
  obtain ⟨before, pulse, tail, last, rfl, hbefore, hbits, ⟨hflush, hvalid⟩, hlen, hafter⟩ :=
    h.parts
  obtain ⟨hout1, hmid⟩ := entered_before hs hbefore
  generalize hu : Rcpc.entered.after s before = u at hmid
  have hpulse : Rcpc.entered.out u pulse = [] := by
    simp [Rcpc.entered, enableEnc, hmid, hvalid]
  have hactive : (step u pulse).flushActive = true := by simp [step, hmid, hflush, hvalid]
  have hcnt : (step u pulse).flushCnt = 0 := by simp [step, hmid]
  obtain ⟨hout2, hdone⟩ := entered_tail hactive hcnt hlen
  obtain ⟨hout3, hend⟩ := entered_after hdone hafter
  have hnext : Rcpc.entered.next u pulse = step u pulse := rfl
  rw [List.append_assoc, Reader.outputs_append, Reader.after_append, hu, List.cons_append,
    Reader.outputs, Reader.after, hnext, Reader.outputs_append, Reader.after_append, hpulse, hout1,
    hout2, hout3, hbits]
  exact ⟨rfl, hend⟩

theorem after_eq (s : State) (js : List Input) : mother.after s js = entered.after s js := by
  induction js generalizing s with
  | nil => rfl
  | cons j js ih => exact ih (step s j)

theorem Flushed.idle {bits : List Bool} {js : List Input} (h : Flushed bits js) {s : State}
    (hs : Idle s) : Idle (mother.after s js) := by
  obtain ⟨hbits, hflush⟩ := h.entered hs.flushActive
  refine ⟨?_, by rw [after_eq]; exact hflush⟩
  have hzeros : ∀ sr : BitVec 4, [false, false, false, false].foldl ViterbiDecoder.next sr = 0 := by
    decide
  rw [after_sr, hbits, List.foldl_append]
  exact hzeros _

theorem idle_reset : Idle reset := ⟨rfl, rfl⟩

end Rcpc

/-! What the decoder makes of it. -/

namespace ViterbiDecoder

/-- The soft value of a bit that is certain. -/
def hard (b : Bool) : BitVec 3 := if b then 7 else 0

def hardStage (word : BitVec 4) (g : Nat) : BitVec 3 := hard (word.getLsbD g)

theorem softCost_hard : ∀ b c, softCost (hard b) c = 0 ↔ c = b := by decide

/-- The edge of the bit that was sent costs nothing, the other one does. -/
theorem branch_hardStage (sr : BitVec 4) (b c : Bool) :
    branch (hardStage (Rcpc.word sr b)) sr c = 0 ↔ c = b := by
  have hsoft : ∀ g < 4, softCost (hardStage (Rcpc.word sr b) g) (output g sr c) = 0 ↔
      output g sr c = output g sr b := by
    intro g hg
    rw [hardStage, Rcpc.word_getLsbD sr b hg]
    exact softCost_hard _ _
  constructor
  · intro h
    rw [branch, stageCost] at h
    have hfirst : output 0 sr c = output 0 sr b := (hsoft 0 (by decide)).1 (by omega)
    have hinput : ∀ sr c b, output 0 sr c = output 0 sr b → c = b := by decide
    exact hinput sr c b hfirst
  · intro h
    rw [branch, stageCost, (hsoft 0 (by decide)).2 (by rw [h]),
      (hsoft 1 (by decide)).2 (by rw [h]), (hsoft 2 (by decide)).2 (by rw [h]),
      (hsoft 3 (by decide)).2 (by rw [h])]

/-- The stages that the groups of a bit sequence make. -/
def softOf (bits : List Bool) (t : Nat) : Nat → BitVec 3 :=
  hardStage ((Rcpc.words 0 bits).getD t 0)

theorem words_getD (sr : BitVec 4) (bits : List Bool) {t : Nat} (ht : t < bits.length) :
    (Rcpc.words sr bits).getD t 0 =
      Rcpc.word (states next sr (fun i => bits.getD i false) t) (bits.getD t false) := by
  induction bits generalizing sr t with
  | nil => exact absurd ht (Nat.not_lt_zero t)
  | cons b bits ih =>
    cases t with
    | zero => rfl
    | succ t =>
      have hstates : ∀ i, states next sr (fun i => (b :: bits).getD i false) (i + 1) =
          states next (next sr b) (fun i => bits.getD i false) i := by
        intro i
        induction i with
        | zero => rfl
        | succ i ihi =>
          rw [states, ihi]
          rfl
      rw [hstates, Rcpc.words, List.getD_cons_succ, List.getD_cons_succ]
      exact ih (next sr b) (Nat.lt_of_succ_lt_succ ht)

/-- The bits that were sent cost nothing, and no others do. -/
theorem pathMetric_softOf (bits : List Bool) (x : Nat → Bool) {n : Nat} (hn : n ≤ bits.length) :
    pathMetric next output (softOf bits) x n = 0 ↔ ∀ t < n, x t = bits.getD t false := by
  induction n with
  | zero => exact ⟨fun _ t ht => absurd ht (Nat.not_lt_zero t), fun _ => rfl⟩
  | succ n ih =>
    have hunfold : pathMetric next output (softOf bits) x (n + 1) =
        pathMetric next output (softOf bits) x n +
          branch (softOf bits n) (states next 0 x n) (x n) := rfl
    have hlast : (∀ t < n, x t = bits.getD t false) →
        (branch (softOf bits n) (states next 0 x n) (x n) = 0 ↔ x n = bits.getD n false) := by
      intro hbefore
      rw [softOf, words_getD 0 bits hn, states_congr next 0 hbefore]
      exact branch_hardStage _ _ _
    rw [hunfold, Nat.add_eq_zero_iff, ih (by omega)]
    constructor
    · intro h
      obtain ⟨hbefore, hnow⟩ := h
      intro t ht
      by_cases hend : t = n
      · rw [hend]
        exact (hlast hbefore).1 hnow
      · exact hbefore t (by omega)
    · intro h
      have hbefore : ∀ t < n, x t = bits.getD t false := fun t ht => h t (by omega)
      exact ⟨hbefore, (hlast hbefore).2 (h n (Nat.lt_succ_self n))⟩

/-- Stages that are certain are decoded to the bits that were sent. -/
theorem decodedBits_softOf (bits : List Bool) (hlen : bits.length ≤ 511) {t : Nat}
    (ht : t < bits.length) : decodedBits bits.length (softOf bits) t = bits.getD t false := by
  have hsent : pathMetric next output (softOf bits) (fun t => bits.getD t false) bits.length = 0 :=
    (pathMetric_softOf bits _ (Nat.le_refl _)).2 fun _ _ => rfl
  have hle := decodedBits_le (softOf bits) hlen fun t => bits.getD t false
  rw [hsent] at hle
  exact (pathMetric_softOf bits _ (Nat.le_refl _)).1 (Nat.le_zero.1 hle) t ht

theorem words_map_hardStage (bits : List Bool) :
    (Rcpc.words 0 bits).map hardStage = (List.range bits.length).map (softOf bits) := by
  refine List.ext_getElem (by simp [Rcpc.words_length]) fun t ht _ => ?_
  rw [List.length_map] at ht
  rw [List.getElem_map, List.getElem_map, List.getElem_range, softOf, List.getD_eq_getElem _ _ ht]

/-- The decoder gives back the information bits of every flushed block: from any state between
blocks on both sides, however the bits are spaced at the encoder and the groups at the decoder. -/
theorem decoder_inverts_encoder {info : List Bool} (hinfo : info ≠ [])
    (hlen : info.length + ViterbiCode.TAIL ≤ 511) {s : Rcpc.State} (hs : Rcpc.Idle s)
    {js : List Rcpc.Input} (hjs : Rcpc.Flushed info js) {v : ViterbiState} (hv : code.Between v)
    {cs rest : List (Option (Nat → BitVec 3))} {x : Nat → BitVec 3}
    (hcs : (cs ++ [some x]).filterMap id = (Rcpc.mother.outputs s js).map hardStage)
    (hrest : rest.length =
      1 + (info.length + ViterbiCode.TAIL) + (info.length + ViterbiCode.TAIL - ViterbiCode.TAIL)) :
    (code.reader (info.length + ViterbiCode.TAIL)).outputs v (cs ++ [some x] ++ rest) = info ∧
      Rcpc.Idle (Rcpc.mother.after s js) ∧
      code.Between
        ((code.reader (info.length + ViterbiCode.TAIL)).after v (cs ++ [some x] ++ rest)) := by
  obtain ⟨hentered, -⟩ := hjs.entered hs.flushActive
  generalize hbits : info ++ [false, false, false, false] = bits at hentered
  have hn : bits.length = info.length + ViterbiCode.TAIL := by
    rw [← hbits, List.length_append]
    rfl
  have hpos : 0 < info.length := List.length_pos_of_ne_nil hinfo
  have h5 : ViterbiCode.TAIL < bits.length := by
    rw [hn]
    exact Nat.lt_add_of_pos_left hpos
  rw [← hn] at hlen hrest ⊢
  rw [Rcpc.mother_outputs, hs.sr, hentered, words_map_hardStage] at hcs
  have hfeeds : ViterbiCode.Feeds bits.length (softOf bits) (cs ++ [some x]) := by
    have hsucc : bits.length = bits.length - 1 + 1 := by omega
    have hone : [some x].filterMap id = [x] := rfl
    rw [hsucc, List.range_succ, List.map_append, List.filterMap_append, hone] at hcs
    obtain ⟨hbefore, hx⟩ := List.append_inj' hcs rfl
    have hlast : x = softOf bits (bits.length - 1) := (List.cons.inj hx).1
    exact ⟨cs, by rw [hlast], hbefore⟩
  obtain ⟨hout, -, -⟩ := hv.ready.block h5 hlen hfeeds hrest
  refine ⟨?_, hjs.idle hs, .block v _ _ _ _ hv h5 hlen hfeeds hrest⟩
  have hinfoLen : bits.length - ViterbiCode.TAIL = info.length := by
    rw [hn]
    exact Nat.add_sub_cancel _ _
  rw [hout, hinfoLen]
  refine List.ext_getElem (by simp) fun t ht ht' => ?_
  have hfits : t < bits.length := by omega
  rw [List.getElem_map, List.getElem_range, decoded_eq, decodedBits_softOf bits hlen hfits, ← hbits,
    List.getD_append _ _ _ _ ht', List.getD_eq_getElem _ _ ht']

/-- One bit and a pulse of `flush`. -/
def oneBit : List Rcpc.Input :=
  [⟨true, true, 0, false⟩, ⟨false, false, 0, true⟩] ++ List.replicate 4 ⟨false, false, 0, false⟩

theorem flushed_oneBit : Rcpc.Flushed [true] oneBit := by
  refine ⟨[⟨true, true, 0, false⟩], ⟨false, false, 0, true⟩,
    List.replicate 4 ⟨false, false, 0, false⟩, [], rfl, ?_, rfl, ⟨rfl, rfl⟩, rfl, ?_⟩
  · intro j hj
    rw [List.mem_singleton.1 hj]
  · intro j hj
    exact absurd hj List.not_mem_nil

theorem decoder_inverts_encoder_oneBit :
    (code.reader ([true].length + ViterbiCode.TAIL)).outputs UlViterbi.reset
        ((Rcpc.words 0 [true, false, false, false]).map (fun word => some (hardStage word)) ++
          [some (hardStage (Rcpc.word 1 false))] ++ List.replicate 7 none) = [true] ∧
      Rcpc.Idle (Rcpc.mother.after Rcpc.reset oneBit) ∧
      code.Between ((code.reader ([true].length + ViterbiCode.TAIL)).after UlViterbi.reset
        ((Rcpc.words 0 [true, false, false, false]).map (fun word => some (hardStage word)) ++
          [some (hardStage (Rcpc.word 1 false))] ++ List.replicate 7 none)) :=
  decoder_inverts_encoder (List.cons_ne_nil _ _) (by decide) Rcpc.idle_reset flushed_oneBit .reset
    rfl rfl

end ViterbiDecoder
end TetraBs.Lmac
