import Mathlib.Data.List.Infix
import TetraBs.Lib.Gray
import TetraBs.Lib.History
import TetraBs.Lib.Run

/-! `cdc_async_fifo`: a FIFO of `2 ^ k` words between two clocks. One step is one rising edge of
either clock; a synchroniser samples the Gray pointer of the other side. -/
namespace TetraBs.Infra
open TetraBs.Gray TetraBs.History TetraBs.Run

/-- An edge of `wr_clk` or of `rd_clk`, with what the first synchroniser stage takes from the wires
of the other side. -/
inductive FifoEdge (k : Nat) (α : Type*) where
  | wr (wrEn : Bool) (wrData : α) (sample : BitVec (k + 1))
  | rd (rdEn : Bool) (sample : BitVec (k + 1))

structure CdcAsyncFifo (k : Nat) (α : Type*) where
  mem : BitVec k → α
  wrPtrBin : BitVec (k + 1)
  wrPtrGray : BitVec (k + 1)
  rdPtrGraySyncMeta : BitVec (k + 1)
  rdPtrGraySync : BitVec (k + 1)
  rdPtrBin : BitVec (k + 1)
  rdPtrGray : BitVec (k + 1)
  wrPtrGraySyncMeta : BitVec (k + 1)
  wrPtrGraySync : BitVec (k + 1)

namespace CdcAsyncFifo
variable {k : Nat} {α : Type*}

/-- The `initial` block; the memory is not initialised. -/
def init (mem : BitVec k → α) : CdcAsyncFifo k α := ⟨mem, 0, 0, 0, 0, 0, 0, 0, 0⟩

variable (s : CdcAsyncFifo k α)

def wrPtrBinNext : BitVec (k + 1) := s.wrPtrBin + 1
def rdPtrBinNext : BitVec (k + 1) := s.rdPtrBin + 1

/-- `{~x[k:k-1], x[k-2:0]}` -/
def invertTop (x : BitVec (k + 1)) : BitVec (k + 1) := x ^^^ (3#(k + 1) <<< (k - 1))

def wrFull : Bool := gray s.wrPtrBinNext = invertTop s.rdPtrGraySync
def rdEmpty : Bool := s.rdPtrGray = s.wrPtrGraySync
def rdData : α := s.mem (s.rdPtrBin.setWidth k)

/-- The words that the write side takes the FIFO to hold: its pointer less the read pointer it
has. -/
def view : Nat :=
  (s.wrPtrBin - ungray s.rdPtrGraySync).toNat

def step : FifoEdge k α → CdcAsyncFifo k α
  | .wr wrEn wrData sample =>
    let s' := { s with rdPtrGraySyncMeta := sample, rdPtrGraySync := s.rdPtrGraySyncMeta }
    if wrEn && !s.wrFull then
      { s' with
        wrPtrBin := s.wrPtrBinNext
        wrPtrGray := gray s.wrPtrBinNext
        mem := Function.update s.mem (s.wrPtrBin.setWidth k) wrData }
    else s'
  | .rd rdEn sample =>
    let s' := { s with wrPtrGraySyncMeta := sample, wrPtrGraySync := s.wrPtrGraySyncMeta }
    if rdEn && !s.rdEmpty then
      { s' with rdPtrBin := s.rdPtrBinNext, rdPtrGray := gray s.rdPtrBinNext }
    else s'

end CdcAsyncFifo

/-- The FIFO with its history. -/
structure WatchedCdc (k : Nat) (α : Type*) where
  fifo : CdcAsyncFifo k α
  /-- Words accepted, and words read. -/
  accepted : List α
  delivered : List α
  /-- The values that each Gray pointer had since the other side's previous sample. -/
  wrSeen : List (BitVec (k + 1))
  rdSeen : List (BitVec (k + 1))

namespace WatchedCdc
variable {k : Nat} {α : Type*}

def init (mem : BitVec k → α) : WatchedCdc k α := ⟨.init mem, [], [], [0], [0]⟩

def step (w : WatchedCdc k α) : FifoEdge k α → WatchedCdc k α
  | .wr wrEn wrData sample =>
    let s' := w.fifo.step (.wr wrEn wrData sample)
    if wrEn && !w.fifo.wrFull then
      { w with
        fifo := s'
        accepted := w.accepted ++ [wrData]
        wrSeen := w.wrSeen ++ [s'.wrPtrGray]
        rdSeen := [s'.rdPtrGray] }
    else { w with fifo := s', rdSeen := [s'.rdPtrGray] }
  | .rd rdEn sample =>
    let s' := w.fifo.step (.rd rdEn sample)
    if rdEn && !w.fifo.rdEmpty then
      { w with
        fifo := s'
        delivered := w.delivered ++ [w.fifo.rdData]
        rdSeen := w.rdSeen ++ [s'.rdPtrGray]
        wrSeen := [s'.wrPtrGray] }
    else { w with fifo := s', wrSeen := [s'.wrPtrGray] }

/-- A sample is a value that the pointer had since the previous one; where it falls together with a
change of the pointer, every bit is the old one or the new one. -/
def Sampled (seen : List (BitVec (k + 1))) (v : BitVec (k + 1)) : Prop :=
  ∃ i a b, seen[i]? = some a ∧ (seen[i]? = some b ∨ seen[i + 1]? = some b) ∧ Mixes a b v

/-- The samples of an edge are right. -/
def Samples (w : WatchedCdc k α) : FifoEdge k α → Prop
  | .wr _ _ sample => Sampled w.rdSeen sample
  | .rd _ sample => Sampled w.wrSeen sample

/-- The code of a count. -/
def code (k n : Nat) : BitVec (k + 1) := gray (BitVec.ofNat (k + 1) n)

/-- The codes of the counts `m` to `n`. -/
def codes (k m n : Nat) : List (BitVec (k + 1)) := (List.range' m (n + 1 - m)).map (code k)

/-- One side's pointer, and what the other side has of it: counts that are out of date in the order
in which they were sampled. -/
structure Follows (k count : Nat) (bin gr late later : BitVec (k + 1))
    (seen : List (BitVec (k + 1))) (n : Nat) : Prop where
  bin : bin = BitVec.ofNat (k + 1) count
  gray : gr = code k count
  synced : late = code k n
  pending : ∃ m b, n ≤ m ∧ m ≤ b ∧ b ≤ count ∧ later = code k m ∧ seen = codes k b count

/-- `r` and `w` are the counts that the write and the read side go by. -/
structure Inv (s : WatchedCdc k α) : Prop where
  rd : ∃ r, Follows k s.delivered.length s.fifo.rdPtrBin s.fifo.rdPtrGray s.fifo.rdPtrGraySync
    s.fifo.rdPtrGraySyncMeta s.rdSeen r ∧ s.accepted.length < r + 2 ^ k
  wr : ∃ w, Follows k s.accepted.length s.fifo.wrPtrBin s.fifo.wrPtrGray s.fifo.wrPtrGraySync
    s.fifo.wrPtrGraySyncMeta s.wrSeen w ∧ s.delivered.length ≤ w
  mem : Records s.fifo.mem s.accepted
  delivered : s.delivered <+: s.accepted

/-- What is read is what was accepted, in order, and was written before; at most `2 ^ k` words are
stored; and a read side that is up to date and empty has read everything. -/
structure Delivers (s : WatchedCdc k α) : Prop where
  inOrder : s.delivered <+: s.accepted
  bounded : s.accepted.length ≤ s.delivered.length + 2 ^ k
  drained : s.fifo.rdEmpty = true → s.fifo.wrPtrGraySync = s.fifo.wrPtrGray →
    s.delivered = s.accepted

theorem code_succ (k n : Nat) :
    code k (n + 1) = TetraBs.Gray.gray (BitVec.ofNat (k + 1) n + 1) := by
  rw [code, BitVec.ofNat_add]
  rfl

theorem codes_getElem? {m n i : Nat} {a : BitVec (k + 1)} (h : (codes k m n)[i]? = some a) :
    m + i ≤ n ∧ a = code k (m + i) := by
  obtain ⟨hi, heq⟩ := List.getElem?_eq_some_iff.1 h
  rw [codes, List.length_map, List.length_range'] at hi
  refine ⟨by omega, heq.symm.trans ?_⟩
  simp [codes]

/-- Whatever is sampled is the code of a count. -/
theorem sampled_codes {m n : Nat} {v : BitVec (k + 1)} (h : Sampled (codes k m n) v) :
    ∃ j, m ≤ j ∧ j ≤ n ∧ v = code k j := by
  obtain ⟨i, a, b, ha, hb, hmix⟩ := h
  obtain ⟨hi, rfl⟩ := codes_getElem? ha
  rcases hb with hb | hb
  · obtain ⟨-, rfl⟩ := codes_getElem? hb
    exact ⟨m + i, by omega, hi, mixes_self hmix⟩
  · obtain ⟨hi', rfl⟩ := codes_getElem? hb
    rw [← Nat.add_assoc, code_succ] at hmix
    rcases mixes_gray hmix with hv | hv
    · exact ⟨m + i, by omega, hi, hv⟩
    · exact ⟨m + i + 1, by omega, hi', hv.trans (code_succ k (m + i)).symm⟩

section
variable {count n : Nat} {bin gr late later : BitVec (k + 1)} {seen : List (BitVec (k + 1))}

theorem Follows.init (k : Nat) : Follows k 0 0 0 0 0 [0] 0 := by
  have hzero : code k 0 = 0 := by simp [code, TetraBs.Gray.gray]
  exact ⟨rfl, hzero.symm, hzero.symm, 0, 0, Nat.le_refl 0, Nat.le_refl 0, Nat.le_refl 0,
    hzero.symm, by simp [codes, hzero]⟩

theorem Follows.le (h : Follows k count bin gr late later seen n) : n ≤ count := by
  obtain ⟨m, b, hnm, hmb, hb, -, -⟩ := h.pending
  omega

/-- The other side samples the pointer. -/
theorem Follows.sample (h : Follows k count bin gr late later seen n) {v : BitVec (k + 1)}
    (hv : Sampled seen v) : ∃ n', n ≤ n' ∧ Follows k count bin gr later v [gr] n' := by
  obtain ⟨m, b, hnm, hmb, hb, hlater, hseen⟩ := h.pending
  obtain ⟨j, hbj, hj, rfl⟩ := sampled_codes (hseen ▸ hv)
  refine ⟨m, hnm, h.bin, h.gray, hlater, j, count, by omega, hj, Nat.le_refl count, rfl, ?_⟩
  simp [codes, h.gray]

/-- The pointer counts. -/
theorem Follows.advance (h : Follows k count bin gr late later seen n) :
    Follows k (count + 1) (bin + 1) (TetraBs.Gray.gray (bin + 1)) late later
      (seen ++ [TetraBs.Gray.gray (bin + 1)]) n := by
  obtain ⟨m, b, hnm, hmb, hb, hlater, hseen⟩ := h.pending
  have hnext : TetraBs.Gray.gray (bin + 1) = code k (count + 1) := by rw [code_succ, h.bin]
  refine ⟨?_, hnext, h.synced, m, b, hnm, hmb, by omega, hlater, ?_⟩
  · rw [h.bin, BitVec.ofNat_add]
    rfl
  · rw [hseen, hnext, codes, codes, (by omega : count + 1 + 1 - b = count + 1 - b + 1),
      List.range'_1_concat, List.map_append, List.map_singleton,
      (by omega : b + (count + 1 - b) = count + 1)]

end

variable {s : WatchedCdc k α}

theorem invertTop_code (hk : 1 ≤ k) (n : Nat) :
    CdcAsyncFifo.invertTop (code k n) = code k (n + 2 ^ k) := by
  rw [code, code, BitVec.ofNat_add, gray_add_half hk]
  rfl

/-- A write side that is `2 ^ k` words ahead of what it knows of the reads would be full. -/
theorem full_of_ahead (hk : 1 ≤ k) {r n : Nat} (hbin : s.fifo.wrPtrBin = BitVec.ofNat (k + 1) n)
    (hsync : s.fifo.rdPtrGraySync = code k r) (h : n + 1 = r + 2 ^ k) : s.fifo.wrFull = true := by
  rw [CdcAsyncFifo.wrFull, CdcAsyncFifo.wrPtrBinNext, hbin, hsync, ← code_succ, h,
    invertTop_code hk, decide_eq_true_iff]

theorem inv_init (mem : BitVec k → α) : Inv (init mem) where
  rd := ⟨0, Follows.init k, by simpa [init] using Nat.two_pow_pos k⟩
  wr := ⟨0, Follows.init k, Nat.le_refl 0⟩
  mem := records_nil mem
  delivered := List.nil_prefix

theorem Inv.step_wr (h : Inv s) (hk : 1 ≤ k) {wrEn : Bool} {wrData : α} {sample : BitVec (k + 1)}
    (hsample : Sampled s.rdSeen sample) : Inv (s.step (.wr wrEn wrData sample)) := by
  obtain ⟨r, hrd, hroom⟩ := h.rd
  obtain ⟨w, hwr, hread⟩ := h.wr
  obtain ⟨r', hr, hrd'⟩ := hrd.sample hsample
  cases hgo : wrEn && !s.fifo.wrFull with
  | false =>
    simp only [step, CdcAsyncFifo.step, hgo, Bool.false_eq_true, if_false]
    exact ⟨⟨r', hrd', Nat.lt_of_lt_of_le hroom (Nat.add_le_add_right hr _)⟩, ⟨w, hwr, hread⟩, h.mem,
      h.delivered⟩
  | true =>
    have hfull : s.fifo.wrFull = false := by
      rw [Bool.and_eq_true, Bool.not_eq_true'] at hgo
      exact hgo.2
    have hahead : s.accepted.length + 1 ≠ r + 2 ^ k := by
      intro heq
      rw [full_of_ahead hk hwr.bin hrd.synced heq] at hfull
      cases hfull
    have haddr : s.fifo.wrPtrBin.setWidth k = BitVec.ofNat k s.accepted.length := by
      rw [hwr.bin, BitVec.setWidth_ofNat_of_le (Nat.le_succ k)]
    simp only [step, CdcAsyncFifo.step, hgo, if_true]
    refine ⟨⟨r', hrd', ?_⟩, ⟨w, ?_, hread⟩, ?_, h.delivered.trans (List.prefix_append _ _)⟩
    · rw [List.length_append, List.length_singleton]
      omega
    · rw [List.length_append]
      exact hwr.advance
    · rw [haddr]
      exact h.mem.push wrData

theorem Inv.step_rd (h : Inv s) {rdEn : Bool} {sample : BitVec (k + 1)}
    (hsample : Sampled s.wrSeen sample) : Inv (s.step (.rd rdEn sample)) := by
  obtain ⟨r, hrd, hroom⟩ := h.rd
  obtain ⟨w, hwr, hread⟩ := h.wr
  obtain ⟨w', hw, hwr'⟩ := hwr.sample hsample
  have hle := hrd.le
  cases hgo : rdEn && !s.fifo.rdEmpty with
  | false =>
    simp only [step, CdcAsyncFifo.step, hgo, Bool.false_eq_true, if_false]
    exact ⟨⟨r, hrd, hroom⟩, ⟨w', hwr', hread.trans hw⟩, h.mem, h.delivered⟩
  | true =>
    have hempty : s.fifo.rdEmpty = false := by
      rw [Bool.and_eq_true, Bool.not_eq_true'] at hgo
      exact hgo.2
    have hne : s.delivered.length ≠ w := by
      intro heq
      rw [CdcAsyncFifo.rdEmpty, hrd.gray, hwr.synced, heq, decide_eq_false_iff_not] at hempty
      exact hempty rfl
    have hlt : s.delivered.length < s.accepted.length := by
      have hwle := hwr.le
      omega
    -- the memory still holds the word at the read pointer
    have hword : s.fifo.rdData = s.accepted[s.delivered.length] := by
      rw [← h.mem _ hlt (by omega), CdcAsyncFifo.rdData, hrd.bin,
        BitVec.setWidth_ofNat_of_le (Nat.le_succ k)]
    simp only [step, CdcAsyncFifo.step, hgo, if_true]
    refine ⟨⟨r, ?_, hroom⟩, ⟨w', hwr', ?_⟩, h.mem, ?_⟩
    · rw [List.length_append]
      exact hrd.advance
    · rw [List.length_append, List.length_singleton]
      omega
    · rw [hword]
      exact List.concat_get_prefix h.delivered hlt

theorem Inv.step (h : Inv s) (hk : 1 ≤ k) {e : FifoEdge k α} (he : Samples s e) :
    Inv (s.step e) := by
  cases e with
  | wr wrEn wrData sample => exact h.step_wr hk he
  | rd rdEn sample => exact h.step_rd he

theorem Inv.delivers (h : Inv s) : Delivers s := by
  obtain ⟨r, hrd, hroom⟩ := h.rd
  obtain ⟨n, hwr, hread⟩ := h.wr
  have hle := hrd.le
  have hlen := h.delivered.length_le
  refine ⟨h.delivered, by omega, fun hempty hsync => ?_⟩
  rw [CdcAsyncFifo.rdEmpty, decide_eq_true_iff, hsync, hrd.gray, hwr.gray] at hempty
  have hcount := congrArg BitVec.toNat (gray_inj hempty)
  rw [BitVec.toNat_ofNat, BitVec.toNat_ofNat, Nat.pow_succ] at hcount
  refine h.delivered.eq_of_length ?_
  by_contra hne
  have hdvd := Nat.dvd_of_mod_eq_zero (Nat.sub_mod_eq_zero_of_mod_eq hcount.symm)
  have hbig := Nat.le_of_dvd (by omega) hdvd
  omega

theorem fifo_delivers (hk : 2 ≤ k) (mem : BitVec k → α) {es : List (FifoEdge k α)}
    (h : Along step Samples (init mem) es) : Delivers (exec step (init mem) es) :=
  (exec_invariant Inv (fun _ _ hs he => hs.step (Nat.le_of_succ_le hk) he) (inv_init mem)
    h).delivers

/-- Two words through a FIFO of four; the write side's pointer is sampled while it changes. -/
def twoWords : List (FifoEdge 2 Nat) :=
  [.wr true 7 0, .rd true 0, .wr true 8 0, .rd true 3, .rd true 3, .rd true 3, .rd true 3]

example : (exec step (init fun _ => 0) twoWords).delivered = [7, 8] := by decide

theorem fifo_delivers_two_words : Delivers (exec step (init fun _ => 0) twoWords) := by
  have hold : ∀ {seen : List (BitVec 3)} {v : BitVec 3}, seen[0]? = some v → Sampled seen v :=
    fun h => ⟨0, _, _, h, Or.inl h, fun _ => Or.inl rfl⟩
  have hmixed : Sampled [1#3, 3#3] 3#3 := ⟨0, 1, 3, rfl, Or.inr rfl, fun _ => Or.inr rfl⟩
  exact fifo_delivers (by decide) _ ⟨hold rfl, hold rfl, hold rfl, hmixed, hold rfl, hold rfl,
    hold rfl, trivial⟩

/-- Codes tell counts apart that are less than a turn from a third. -/
theorem code_add_inj {n i j : Nat} (hi : i < 2 ^ (k + 1)) (hj : j < 2 ^ (k + 1))
    (h : code k (n + i) = code k (n + j)) : i = j := by
  have heq := gray_inj h
  rw [BitVec.ofNat_add n i, BitVec.ofNat_add n j] at heq
  have hnat := congrArg BitVec.toNat ((BitVec.add_right_inj _).1 heq)
  rwa [BitVec.toNat_ofNat, BitVec.toNat_ofNat, Nat.mod_eq_of_lt hi, Nat.mod_eq_of_lt hj] at hnat

/-- The write side counts from a read count it has had, and is full one word before the FIFO. -/
theorem Inv.view_spec (hk : 1 ≤ k) (h : Inv s) :
    s.fifo.view < 2 ^ k ∧ (s.fifo.wrFull = true ↔ s.fifo.view + 1 = 2 ^ k) := by
  obtain ⟨r, hrd, hroom⟩ := h.rd
  obtain ⟨w, hwr, -⟩ := h.wr
  have hle : r ≤ s.accepted.length := Nat.le_trans hrd.le h.delivered.length_le
  have hhalf : 2 ^ k < 2 ^ (k + 1) := Nat.pow_lt_pow_right (by decide) (Nat.lt_succ_self k)
  obtain ⟨d, hd⟩ := Nat.exists_eq_add_of_le hle
  rw [hd] at hroom
  have hview : s.fifo.view = d := by
    rw [CdcAsyncFifo.view, hwr.bin, hrd.synced, code, ungray_gray, hd, Nat.add_comm r d,
      BitVec.ofNat_add, BitVec.add_sub_cancel, BitVec.toNat_ofNat, Nat.mod_eq_of_lt (by omega)]
  rw [hview]
  refine ⟨by omega, fun hfull => ?_, fun heq => full_of_ahead hk hwr.bin hrd.synced (by omega)⟩
  rw [CdcAsyncFifo.wrFull, CdcAsyncFifo.wrPtrBinNext, hwr.bin, hrd.synced, ← code_succ,
    invertTop_code hk, hd, Nat.add_assoc, decide_eq_true_iff] at hfull
  exact code_add_inj (by omega) hhalf hfull

/-- Over a run the write side is never full short of `2 ^ k` words just if it is never one short. -/
theorem wrFull_low_iff (hk : 2 ≤ k) (mem : BitVec k → α) {es : List (FifoEdge k α)}
    (h : Along step Samples (init mem) es) :
    (∀ pre, pre <+: es → (exec step (init mem) pre).fifo.view < 2 ^ k →
        (exec step (init mem) pre).fifo.wrFull = false) ↔
      ∀ pre, pre <+: es → (exec step (init mem) pre).fifo.view ≠ 2 ^ k - 1 := by
  have hk1 : 1 ≤ k := Nat.le_of_succ_le hk
  have hinv : ∀ pre, pre <+: es → Inv (exec step (init mem) pre) := by
    rintro pre ⟨rest, rfl⟩
    exact exec_invariant Inv (fun _ _ hs he => hs.step hk1 he) (inv_init mem) (along_append.1 h).1
  have hpos := Nat.two_pow_pos k
  constructor
  · intro hlow pre hpre hview
    obtain ⟨hlt, hfull⟩ := (hinv pre hpre).view_spec hk1
    have hhigh := hfull.2 (by omega)
    rw [hlow pre hpre hlt] at hhigh
    cases hhigh
  · intro hne pre hpre hlt
    obtain ⟨-, hfull⟩ := (hinv pre hpre).view_spec hk1
    have := hne pre hpre
    rw [← Bool.not_eq_true, hfull]
    omega

/-- Three words into a FIFO of four, none of them read. -/
def threeWords : List (FifoEdge 2 Nat) := [.wr true 7 0, .wr true 8 0, .wr true 9 0]

theorem along_threeWords : Along step Samples (init fun _ => 0) threeWords := by
  have hold : Sampled [0#3] 0#3 := ⟨0, 0, 0, rfl, Or.inl rfl, fun _ => Or.inl rfl⟩
  exact ⟨hold, hold, hold, trivial⟩

/-- The fourth place cannot be used. -/
theorem threeWords_full : Along step Samples (init fun _ => 0) threeWords ∧
    (exec step (init fun _ => 0) threeWords).fifo.view = 3 ∧
    (exec step (init fun _ => 0) threeWords).fifo.wrFull = true :=
  ⟨along_threeWords, by decide, by decide⟩

theorem wrFull_low_iff_threeWords :
    (∀ pre, pre <+: threeWords → (exec step (init fun _ => 0) pre).fifo.view < 2 ^ 2 →
        (exec step (init fun _ => 0) pre).fifo.wrFull = false) ↔
      ∀ pre, pre <+: threeWords → (exec step (init fun _ => 0) pre).fifo.view ≠ 2 ^ 2 - 1 :=
  wrFull_low_iff (by decide) _ along_threeWords

end WatchedCdc
end TetraBs.Infra
