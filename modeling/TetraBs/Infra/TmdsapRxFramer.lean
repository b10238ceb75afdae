import TetraBs.Infra.Axis
import TetraBs.Lib.Stream

/-! The framer `tetra_tmdsap_rx_framer` of the TmdSap-RX channel: one TMDC frame for each
432-bit half-block. One step is one rising clock edge. -/
namespace TetraBs.Infra.TmdsapRx
open TetraBs.Bits TetraBs.Run TetraBs.Stream

inductive FsmState where
  | idle | emit
deriving DecidableEq

structure Input where
  inNubBits : BitVec 432
  inValid : Bool
  tready : Bool

structure State where
  state : FsmState
  beatIdx : BitVec 5
  payloadQ : BitVec 432
  tdata : Word
  tvalid : Bool
  tlast : Bool
  tkeep : BitVec 4
  framesCnt : Word

def reset : State := ⟨.idle, 0, 0, 0, false, false, 0, 0⟩

def TOTAL_LEN_BYTES : Word := 62

def inReady (s : State) : Bool := s.state = .idle

/-- `payload_q[431 - 8 * k -: 8]`. -/
def payloadByte (nub : BitVec 432) (k : Nat) : Byte := nub.extractLsb' (424 - 8 * k) 8

def beatWord (nub : BitVec 432) (beatNo : Nat) : Word :=
  let baseByte := (beatNo - 2) * 4
  if beatNo ≤ 14 then
    payloadByte nub baseByte ++ payloadByte nub (baseByte + 1) ++ payloadByte nub (baseByte + 2) ++
      payloadByte nub (baseByte + 3)
  else payloadByte nub 52 ++ payloadByte nub 53 ++ 0#8 ++ 0#8

/-- The beat that `beat_idx` selects. -/
def beatAt (nub : BitVec 432) (idx : Nat) : Beat :=
  if idx = 0 then Beat.mid MAGIC_TMDC
  else if idx = 1 then Beat.mid TOTAL_LEN_BYTES
  else if idx ≤ 14 then Beat.mid (beatWord nub idx)
  else ⟨beatWord nub 15, 0b1100, true⟩

def step (s : State) (i : Input) : State :=
  match s.state with
  | .idle =>
    let s := { s with tvalid := false, tlast := false, tkeep := 0 }
    if i.inValid then { s with payloadQ := i.inNubBits, beatIdx := 0, state := .emit } else s
  | .emit =>
    let b := beatAt s.payloadQ s.beatIdx.toNat
    let s := { s with tvalid := true, tdata := b.tdata, tkeep := b.tkeep, tlast := b.tlast }
    if i.tready then
      if s.beatIdx = 15 then
        { s with
          framesCnt := if s.framesCnt ≠ 0xFFFFFFFF then s.framesCnt + 1 else s.framesCnt
          state := .idle, beatIdx := 0 }
      else { s with beatIdx := s.beatIdx + 1 }
    else s

/-- The bytes of the frame of a half-block. -/
def frameBytes (nub : BitVec 432) : List Byte :=
  wordBytes MAGIC_TMDC ++ wordBytes TOTAL_LEN_BYTES ++ (List.range 54).map (payloadByte nub)

def queue (s : State) : List Beat :=
  match s.state with
  | .idle => []
  | .emit => (List.range' s.beatIdx.toNat (16 - s.beatIdx.toNat)).map (beatAt s.payloadQ)

def source : Source State Input Beat where
  step := step
  offered := fun s => if s.tvalid then some ⟨s.tdata, s.tkeep, s.tlast⟩ else none
  ready := Input.tready
  queue := queue
  first := fun s => s.beatIdx = 0
  refill := fun s i => if s.state = .idle then queue (step s i) else []

def Inv (s : State) : Prop := s.beatIdx.toNat ≤ 15

theorem inv_reset : Inv reset := Nat.zero_le 15

theorem queue_emit {s : State} (h : Inv s) (hst : s.state = .emit) :
    queue s = beatAt s.payloadQ s.beatIdx.toNat ::
      (List.range' (s.beatIdx.toNat + 1) (15 - s.beatIdx.toNat)).map (beatAt s.payloadQ) := by
  have hsub : 16 - s.beatIdx.toNat = 15 - s.beatIdx.toNat + 1 := by
    unfold Inv at h
    omega
  rw [queue, hst, hsub, List.range'_succ]
  rfl

theorem inv_step (s : State) (i : Input) (h : Inv s) : Inv (step s i) := by
  cases hst : s.state with
  | idle =>
    simp only [step, hst]
    split
    · exact Nat.zero_le 15
    · exact h
  | emit =>
    simp only [step, hst]
    split
    · split
      · exact Nat.zero_le 15
      · rename_i hne
        have hlt : s.beatIdx.toNat ≠ 15 := fun he => hne (BitVec.eq_of_toNat_eq he)
        rw [Inv] at h ⊢
        bv_omega
    · exact h

theorem loads : source.Loads Inv where
  idle {s} i hi hq := by
    have hst : s.state = .idle := by
      cases hst : s.state with
      | idle => rfl
      | emit =>
        have hq : queue s = [] := hq
        simp [queue_emit hi hst] at hq
    refine ⟨?_, (if_pos hst).symm, ?_⟩
    · simp only [source, step, hst]
      split <;> rfl
    · simp only [source, hst, if_true, step]
      split
      · simp
      · simp [queue]
  go {s i b q} hi hq hr := by
    replace hr : i.tready = true := hr
    replace hq : queue s = b :: q := hq
    cases hst : s.state with
    | idle => simp [queue, hst] at hq
    | emit =>
      rw [queue_emit hi hst, List.cons.injEq] at hq
      obtain ⟨rfl, rfl⟩ := hq
      by_cases hlast : s.beatIdx = 15#5
      · simp [source, step, hst, hr, queue, hlast]
      · have hne : s.beatIdx.toNat ≠ 15 := fun he => hlast (BitVec.eq_of_toNat_eq he)
        unfold Inv at hi
        have hmod : (s.beatIdx.toNat + 1) % 32 = s.beatIdx.toNat + 1 := by omega
        have hsub : 16 - (s.beatIdx.toNat + 1) = 15 - s.beatIdx.toNat := by omega
        have hnz : s.beatIdx + 1#5 ≠ 0#5 := by bv_omega
        simp [source, step, hst, hr, queue, hlast, hmod, hsub, hnz]
  wait {s i b q} hi hq hr := by
    replace hr : i.tready = false := hr
    replace hq : queue s = b :: q := hq
    cases hst : s.state with
    | idle => simp [queue, hst] at hq
    | emit =>
      have hq' := hq
      rw [queue_emit hi hst, List.cons.injEq] at hq'
      rw [← hq]
      simp [source, step, hst, hr, queue, ← hq'.1]

/-- Four payload bytes from byte `4 * k` on. -/
def payloadBeat (nub : BitVec 432) (k : Nat) : List Byte × Bool :=
  ([payloadByte nub (k * 4), payloadByte nub (k * 4 + 1), payloadByte nub (k * 4 + 2),
    payloadByte nub (k * 4 + 3)], false)

theorem beatAt_wire (nub : BitVec 432) {k : Nat} (h : k < 13) :
    (beatAt nub (k + 2)).wire = payloadBeat nub k := by
  have hle : k + 2 ≤ 14 := by omega
  have hmid : beatAt nub (k + 2) = Beat.mid (beatWord nub (k + 2)) := by simp [beatAt, hle]
  rw [hmid, Beat.mid_wire, beatWord, if_pos hle, wordBytes_append]
  rfl

theorem beatAt_wire_last (nub : BitVec 432) :
    (beatAt nub 15).wire = ([payloadByte nub 52, payloadByte nub 53], true) := by
  have hlast : beatAt nub 15 = ⟨beatWord nub 15, 0b1100, true⟩ := rfl
  rw [hlast, Beat.wire, (keptBytes_take _).2.1, beatWord, if_neg (by decide), wordBytes_append]
  rfl

theorem beats_wire (nub : BitVec 432) :
    ((List.range' 0 16).map (beatAt nub)).map Beat.wire = wireBeats 62 (frameBytes nub) := by
  have hsplit : List.range' 0 16 = [0, 1] ++ (List.range 13).map (· + 2) ++ [15] := rfl
  have hmid : ((List.range 13).map (· + 2)).map (fun k => (beatAt nub k).wire) =
      (List.range 13).map (payloadBeat nub) := by
    rw [List.map_map]
    exact List.map_congr_left fun k hk => beatAt_wire nub (List.mem_range.1 hk)
  have hhead : (beatAt nub 0).wire = (wordBytes MAGIC_TMDC, false) ∧
      (beatAt nub 1).wire = (wordBytes TOTAL_LEN_BYTES, false) :=
    ⟨Beat.mid_wire _, Beat.mid_wire _⟩
  rw [List.map_map, hsplit, List.map_append, List.map_append]
  change [(beatAt nub 0).wire, (beatAt nub 1).wire] ++
    ((List.range 13).map (· + 2)).map (fun k => (beatAt nub k).wire) ++ [(beatAt nub 15).wire] = _
  rw [hmid, beatAt_wire_last, hhead.1, hhead.2]
  rfl

def requested (s : State) (i : Input) : List (BitVec 432) :=
  if i.inValid && inReady s then [i.inNubBits] else []

theorem refill_eq (s : State) (i : Input) :
    (source.refill s i).map Beat.wire =
      (requested s i).flatMap fun nub => wireBeats 62 (frameBytes nub) := by
  cases hst : s.state with
  | idle =>
    simp only [source, hst, if_true, step, requested, inReady, decide_true, Bool.and_true]
    split
    · simpa [queue] using beats_wire i.inNubBits
    · rfl
  | emit => simp [source, hst, requested, inReady]

def note (log : List (BitVec 432)) (s : State) (i : Input) : List (BitVec 432) :=
  log ++ requested s i

def words (log : List (BitVec 432)) : List (List Byte × Bool) :=
  log.flatMap fun nub => wireBeats 62 (frameBytes nub)

/-- What an edge must meet for the transfer law. -/
def Meets (t : Traffic State Beat (List (BitVec 432))) (i : Input) : Prop :=
  source.KeepsUp t.state i

instance (t : Traffic State Beat (List (BitVec 432))) (i : Input) : Decidable (Meets t i) :=
  inferInstanceAs (Decidable (source.KeepsUp t.state i))

theorem delivered {is : List Input}
    (ha : Along (Traffic.edge source note) Meets (Traffic.start reset []) is) :
    (exec (Traffic.edge source note) (Traffic.start reset []) is).Delivered source Beat.wire
      words := by
  obtain ⟨hsettled, hconserved⟩ := Traffic.run_conserved loads inv_step
    (fun _ _ h => h) inv_reset rfl rfl ha
  refine hconserved.delivered hsettled ?_
  refine exec_invariant
    (fun t : Traffic State Beat (List (BitVec 432)) => t.due.map Beat.wire = words t.log)
    (fun t i ht _ => ?_) rfl ha
  change (t.due ++ source.refill t.state i).map Beat.wire = words (t.log ++ requested t.state i)
  rw [List.map_append, ht, refill_eq, words, words, List.flatMap_append]

end TetraBs.Infra.TmdsapRx
