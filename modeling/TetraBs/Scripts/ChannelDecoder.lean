import Mathlib.Algebra.Group.Nat.Defs
import TetraBs.Lib.Lfsr
import TetraBs.Lib.Relaxation

/-! The channel decoder of `scripts/decode_dl.py` for blocks of hard decisions. -/
namespace TetraBs.DecodeDl
open TetraBs.Lfsr TetraBs.Relaxation

def scramblerTaps : List Nat := [0, 6, 9, 10, 16, 20, 21, 22, 24, 25, 27, 28, 30, 31]

/-- `scrambler_seq`: `init` is cut to 32 bits, an empty register is filled with ones. -/
def scramblerSeq (init length : Nat) : List Bool :=
  let lfsr := BitVec.ofNat 32 init
  Lfsr.stream (fibStep scramblerTaps) (tapped scramblerTaps) length
    (if lfsr = 0#32 then 0xFFFFFFFF#32 else lfsr)

/-- `make_scramb_code`. -/
def makeScrambCode (mcc mnc cc : Nat) : Nat :=
  ((mcc &&& 0x3FF) <<< 22) ||| ((mnc &&& 0x3FFF) <<< 8) ||| ((cc &&& 0x3F) <<< 2) ||| 3

/-- `make_scramb_code_dmo`. -/
def makeScrambCodeDmo (mnc srcAddress : Nat) : Nat :=
  ((mnc &&& 0x3F) <<< 26) ||| ((srcAddress &&& 0xFFFFFF) <<< 2) ||| 3

/-- The received bits with the sequence of `init` taken off. -/
def descramble (bits : List Bool) (init : Nat) : List Bool :=
  List.zipWith xor bits (scramblerSeq init bits.length)

/-- `deinterleave_perm`. -/
def deinterleavePerm (bits : List Bool) (K a : Nat) : List Bool :=
  (List.range' 1 K).map fun i =>
    let k := 1 + (a * i) % K
    bits.getD (k - 1) false

/-- `depuncture_r23`; `none` is the erasure. -/
def depunctureR23 (bits : List Bool) (motherLen : Nat) : List (Option Bool) :=
  let P := [0, 1, 2, 5]
  let t := 3
  let period := 8
  (List.range' 1 bits.length).foldl
    (fun out j =>
      let k := period * ((j - 1) / t) + P.getD (j - t * ((j - 1) / t)) 0
      out.set (k - 1) (some (bits.getD (j - 1) false)))
    (List.replicate motherLen none)

/-- `_parity5`. -/
def parity5 (x : BitVec 5) : Bool :=
  let v := x ^^^ (x >>> 4)
  let v := v ^^^ (v >>> 2)
  let v := v ^^^ (v >>> 1)
  v.getLsbD 0

/-- `ETSI_G1` to `ETSI_G4`. -/
def Gs : List (BitVec 5) := [0x13, 0x1D, 0x17, 0x1B]

/-- An array over the states. -/
abbrev Table (α : Type) := Vector α (2 ^ 4)

namespace Table
variable {α : Type}

def read (t : Table α) (s : BitVec 4) : α := t.get s.toFin

def put (t : Table α) (s : BitVec 4) (x : α) : Table α := t.set s.toNat x s.isLt

theorem read_put (t : Table α) (s s' : BitVec 4) (x : α) :
    (t.put s x).read s' = if s' = s then x else t.read s' := by
  have hget : (t.put s x).read s' = if s.toNat = s'.toNat then x else t.read s' :=
    Vector.getElem_set s.isLt s'.isLt
  rw [hget]
  by_cases h : s' = s
  · rw [if_pos h, if_pos (congrArg BitVec.toNat h.symm)]
  · rw [if_neg h, if_neg fun he => h (BitVec.eq_of_toNat_eq he.symm)]

theorem read_replicate (x : α) (s : BitVec 4) : read (Vector.replicate (2 ^ 4) x) s = x :=
  Vector.getElem_replicate s.isLt

end Table

def INF : Nat := 10 ^ 9

/-- `new_pm` and the rows of `tb_state` and `tb_input` of one input bit. -/
structure Row where
  pm : Table Nat
  tbState : Table (BitVec 4)
  tbInput : Table Bool

/-- `((old_state << 1) | inp) & 0x1F`. -/
def shifted (oldState : BitVec 4) (inp : Bool) : BitVec 5 := oldState.concat inp

/-- `sr & 0xF`. -/
def newState (oldState : BitVec 4) (inp : Bool) : BitVec 4 := (shifted oldState inp).setWidth 4

/-- What the received values add to a metric; an erasure adds nothing. -/
def addMetric (rx : Nat → Option Bool) (sr : BitVec 5) (metric : Nat) : Nat :=
  (List.range 4).foldl
    (fun metric m =>
      match rx m with
      | none => metric
      | some r => metric + (parity5 (sr &&& Gs.getD m 0) ^^ r).toNat)
    metric

/-- One transition of the inner loop. -/
def relax (rx : Nat → Option Bool) (pm : Table Nat) (oldState : BitVec 4) (row : Row)
    (inp : Bool) : Row :=
  let metric := addMetric rx (shifted oldState inp) (pm.read oldState)
  if metric < row.pm.read (newState oldState inp) then
    { pm := row.pm.put (newState oldState inp) metric
      tbState := row.tbState.put (newState oldState inp) oldState
      tbInput := row.tbInput.put (newState oldState inp) inp }
  else row

/-- The two loops over the old states and the inputs. -/
def newRow (rx : Nat → Option Bool) (pm : Table Nat) : Row :=
  (List.range 16).foldl
    (fun row n =>
      let oldState := BitVec.ofNat 4 n
      if INF ≤ pm.read oldState then row
      else [false, true].foldl (relax rx pm oldState) row)
    ⟨Vector.replicate (2 ^ 4) INF, Vector.replicate (2 ^ 4) 0, Vector.replicate (2 ^ 4) false⟩

def startPm : Table Nat := Table.put (Vector.replicate (2 ^ 4) INF) 0 0

def lastPm : List Row → Table Nat
  | [] => startPm
  | row :: _ => row.pm

/-- The rows of the first `n` input bits, the newest first. -/
def rows (coded : List (Option Bool)) : Nat → List Row
  | 0 => []
  | i + 1 =>
    let before := rows coded i
    newRow (fun m => coded.getD (4 * i + m) none) (lastPm before) :: before

def traceback : List Row → BitVec 4 → List Bool
  | [], _ => []
  | row :: rs, state => traceback rs (row.tbState.read state) ++ [row.tbInput.read state]

/-- `viterbi_r14`. -/
def viterbiR14 (coded : List (Option Bool)) : List Bool :=
  traceback (rows coded (coded.length / 4)) 0

/-- `crc16_check_dll`. -/
def crc16CheckDll (bits : List Bool) : Bool :=
  let crc := bits.foldl (fun (crc : BitVec 16) b =>
    let feedback := b != crc.getLsbD 0
    let crc := crc >>> 1
    if feedback then crc ^^^ 0x8408 else crc) (0xFFFF : BitVec 16)
  crc == 0xF0B8

structure Decoded where
  crcOk : Bool
  info : List Bool
  decoded : List Bool
deriving DecidableEq

/-- `decode_channel`. -/
def decodeChannel (type5Bits : List Bool) (K a infoBitsLen : Nat) : Decoded :=
  let type4 := deinterleavePerm type5Bits K a
  let motherLen := (type4.length / 3) * 8
  let type3 := depunctureR23 type4 motherLen
  let decoded := viterbiR14 type3
  let infoCrc := decoded.take (infoBitsLen + 16)
  { crcOk := crc16CheckDll infoCrc, info := infoCrc.take infoBitsLen, decoded }

/-! One row: every state keeps the better of its two transitions. -/

/-- The cost of a transition. -/
def edgeCost (rx : Nat → Option Bool) (s : BitVec 4) (b : Bool) : Nat :=
  addMetric rx (shifted s b) 0

theorem addMetric_eq (rx : Nat → Option Bool) (s : BitVec 4) (b : Bool) (metric : Nat) :
    addMetric rx (shifted s b) metric = metric + edgeCost rx s b := by
  have hall : ∀ (ms : List Nat) (metric : Nat), ms.foldl
      (fun metric m =>
        match rx m with
        | none => metric
        | some r => metric + (parity5 (shifted s b &&& Gs.getD m 0) ^^ r).toNat) metric =
      metric + ms.foldl
      (fun metric m =>
        match rx m with
        | none => metric
        | some r => metric + (parity5 (shifted s b &&& Gs.getD m 0) ^^ r).toNat) 0 := by
    intro ms
    induction ms with
    | nil => exact fun _ => rfl
    | cons m ms ih =>
      intro metric
      rw [List.foldl_cons, List.foldl_cons]
      cases rx m with
      | none => exact ih metric
      | some r =>
        simp only
        rw [ih, ih (0 + _), Nat.zero_add, Nat.add_assoc]
  exact hall (List.range 4) metric

/-- A row as a stage of the trellis. -/
def Row.stage (row : Row) : Stage (BitVec 4) := ⟨row.pm.read, row.tbState.read, row.tbInput.read⟩

/-- What a row knows of the transitions that have been tried. -/
structure Tried (rx : Nat → Option Bool) (pm : Table Nat) (edges : List (BitVec 4 × Bool))
    (row : Row) : Prop where
  taken : ∀ s, row.pm.read s < INF →
    newState (row.tbState.read s) (row.tbInput.read s) = s ∧
      pm.read (row.tbState.read s) < INF ∧
      row.pm.read s = pm.read (row.tbState.read s) +
        edgeCost rx (row.tbState.read s) (row.tbInput.read s)
  least : ∀ e ∈ edges, pm.read e.1 < INF →
    row.pm.read (newState e.1 e.2) ≤ pm.read e.1 + edgeCost rx e.1 e.2

variable {rx : Nat → Option Bool} {pm : Table Nat} {edges : List (BitVec 4 × Bool)} {row : Row}

theorem Tried.relax (h : Tried rx pm edges row) {old : BitVec 4} (hold : pm.read old < INF)
    (b : Bool) : Tried rx pm (edges ++ [(old, b)]) (relax rx pm old row b) := by
  rw [DecodeDl.relax, addMetric_eq]
  by_cases hless : pm.read old + edgeCost rx old b < row.pm.read (newState old b)
  · rw [if_pos hless]
    refine ⟨fun s hs => ?_, fun e he hpm => ?_⟩
    · simp only [Table.read_put] at hs ⊢
      by_cases heq : s = newState old b
      · simp only [if_pos heq]
        exact ⟨heq.symm, hold, trivial⟩
      · simp only [if_neg heq] at hs ⊢
        exact h.taken s hs
    · simp only [Table.read_put]
      rcases List.mem_append.1 he with hin | hnew
      · have hle := h.least e hin hpm
        by_cases heq : newState e.1 e.2 = newState old b
        · rw [if_pos heq]
          rw [heq] at hle
          omega
        · rw [if_neg heq]
          exact hle
      · rw [List.mem_singleton.1 hnew]
        exact Nat.le_of_eq (if_pos rfl)
  · rw [if_neg hless]
    refine ⟨h.taken, fun e he hpm => ?_⟩
    rcases List.mem_append.1 he with hin | hnew
    · exact h.least e hin hpm
    · rw [List.mem_singleton.1 hnew]
      exact Nat.le_of_not_lt hless

theorem Tried.skip (h : Tried rx pm edges row) {old : BitVec 4} (hold : ¬ pm.read old < INF)
    (b : Bool) : Tried rx pm (edges ++ [(old, b)]) row where
  taken := h.taken
  least e he hpm := by
    rcases List.mem_append.1 he with hin | hnew
    · exact h.least e hin hpm
    · rw [List.mem_singleton.1 hnew] at hpm
      exact absurd hpm hold

/-- All transitions in the order of the loops. -/
def allEdges (n : Nat) : List (BitVec 4 × Bool) :=
  (List.range n).flatMap fun k => [(BitVec.ofNat 4 k, false), (BitVec.ofNat 4 k, true)]

theorem mem_allEdges : ∀ e : BitVec 4 × Bool, e ∈ allEdges 16 := by
  rintro ⟨s, b⟩
  revert s b
  decide

theorem tried_newRow (rx : Nat → Option Bool) (pm : Table Nat) :
    Tried rx pm (allEdges 16) (newRow rx pm) := by
  have hall : ∀ n, Tried rx pm (allEdges n) ((List.range n).foldl
      (fun row n =>
        let oldState := BitVec.ofNat 4 n
        if INF ≤ pm.read oldState then row
        else [false, true].foldl (DecodeDl.relax rx pm oldState) row)
      ⟨Vector.replicate (2 ^ 4) INF, Vector.replicate (2 ^ 4) 0,
        Vector.replicate (2 ^ 4) false⟩) := by
    intro n
    induction n with
    | zero =>
      refine ⟨fun s hs => ?_, fun e he => absurd he List.not_mem_nil⟩
      rw [List.range_zero, List.foldl_nil, Table.read_replicate] at hs
      exact absurd hs (Nat.lt_irrefl _)
    | succ n ih =>
      have hedges : allEdges (n + 1) = (allEdges n ++ [(BitVec.ofNat 4 n, false)]) ++
          [(BitVec.ofNat 4 n, true)] := by
        rw [allEdges, List.range_succ, List.flatMap_append, List.append_assoc]
        rfl
      rw [List.range_succ, List.foldl_concat, hedges]
      by_cases hold : pm.read (BitVec.ofNat 4 n) < INF
      · simp only [if_neg (Nat.not_le.2 hold)]
        exact (ih.relax hold false).relax hold true
      · simp only [if_pos (Nat.le_of_not_lt hold)]
        exact (ih.skip hold false).skip hold true
  exact hall 16

theorem keeps_newRow (rx : Nat → Option Bool) (pm : Table Nat) :
    Keeps newState INF (edgeCost rx) pm.read (newRow rx pm).stage where
  taken s hs := (tried_newRow rx pm).taken s hs
  least s b hpm _ := (tried_newRow rx pm).least (s, b) (mem_allEdges (s, b)) hpm

/-! All rows. -/

/-- The costs of the first `n` input bits. -/
def costs (coded : List (Option Bool)) (n : Nat) : List (BitVec 4 → Bool → Nat) :=
  (List.range n).map fun i => edgeCost fun m => coded.getD (4 * i + m) none

theorem decodes_rows (coded : List (Option Bool)) (n : Nat) :
    Decodes newState INF startPm.read (costs coded n) ((rows coded n).map Row.stage)
      (lastPm (rows coded n)).read := by
  induction n with
  | zero => exact .start
  | succ n ih =>
    rw [costs, List.range_succ, List.map_append]
    exact ih.stage (keeps_newRow _ _)

theorem readBack_eq (rs : List Row) (s : BitVec 4) :
    traceback rs s = readBack (rs.map Row.stage) s := by
  induction rs generalizing s with
  | nil => rfl
  | cons row rs ih => rw [traceback, ih, List.map_cons, readBack]; rfl

theorem edgeCost_le (rx : Nat → Option Bool) (s : BitVec 4) (b : Bool) : edgeCost rx s b ≤ 4 := by
  have hall : ∀ (ms : List Nat) (metric : Nat), ms.foldl
      (fun metric m =>
        match rx m with
        | none => metric
        | some r => metric + (parity5 (shifted s b &&& Gs.getD m 0) ^^ r).toNat) metric ≤
      metric + ms.length := by
    intro ms
    induction ms with
    | nil => exact fun _ => Nat.le_refl _
    | cons m ms ih =>
      intro metric
      rw [List.foldl_cons, List.length_cons]
      cases rx m with
      | none =>
        have h := ih metric
        simp only
        omega
      | some r =>
        have h := ih (metric + (parity5 (shifted s b &&& Gs.getD m 0) ^^ r).toNat)
        have hbit := Bool.toNat_le (parity5 (shifted s b &&& Gs.getD m 0) ^^ r)
        simp only
        omega
  exact hall (List.range 4) 0

theorem startPm_zero : startPm.read 0 = 0 := by
  rw [startPm, Table.read_put, if_pos rfl]

theorem startPm_other (s : BitVec 4) (hs : s ≠ 0) : startPm.read s = INF := by
  rw [startPm, Table.read_put, if_neg hs, Table.read_replicate]

/-- The decoder finds bits that lead back to state 0, and none that do fit the received values
better. -/
theorem viterbiR14_spec (coded : List (Option Bool)) (hlen : coded.length < INF)
    (hend : ∃ bs : List Bool, bs.length = coded.length / 4 ∧ final newState 0 bs = 0) :
    (viterbiR14 coded).length = coded.length / 4 ∧ final newState 0 (viterbiR14 coded) = 0 ∧
      ∀ bs : List Bool, bs.length = coded.length / 4 → final newState 0 bs = 0 →
        cost newState (costs coded (coded.length / 4)) 0 (viterbiR14 coded) ≤
          cost newState (costs coded (coded.length / 4)) 0 bs := by
  have hopt := (decodes_rows coded (coded.length / 4)).optimal startPm_zero startPm_other
  have hcosts : (costs coded (coded.length / 4)).length = coded.length / 4 := by
    rw [costs, List.length_map, List.length_range]
  have hcheap : ∀ bs, cost newState (costs coded (coded.length / 4)) 0 bs < INF := by
    intro bs
    have hedge : ∀ c ∈ costs coded (coded.length / 4), ∀ s b, c s b ≤ 4 := by
      intro c hc
      obtain ⟨i, -, rfl⟩ := List.mem_map.1 hc
      exact edgeCost_le _
    have hle : cost newState (costs coded (coded.length / 4)) 0 bs ≤
        4 * (costs coded (coded.length / 4)).length := cost_le hedge 0 bs
    rw [hcosts] at hle
    omega
  have hleast : ∀ bs : List Bool, bs.length = coded.length / 4 → final newState 0 bs = 0 →
      (lastPm (rows coded (coded.length / 4))).read 0 ≤
        cost newState (costs coded (coded.length / 4)) 0 bs := by
    intro bs hbs hfinal
    have h := hopt.least bs (by rw [hbs, hcosts]) (hcheap bs)
    rwa [hfinal] at h
  obtain ⟨bs, hbs, hfinal⟩ := hend
  have hreach := hopt.reached 0 (Nat.lt_of_le_of_lt (hleast bs hbs hfinal) (hcheap bs))
  rw [← readBack_eq, ← viterbiR14, hcosts] at hreach
  obtain ⟨hl, hf, hc⟩ := hreach
  refine ⟨hl, hf, fun bs' hbs' hfinal' => ?_⟩
  rw [hc]
  exact hleast bs' hbs' hfinal'

end TetraBs.DecodeDl
