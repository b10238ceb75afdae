import TetraBs.Lib.Requests
import TetraBs.Umac.MacResourceLayout

/-! The acknowledgement builder `tetra_mac_resource_bl_ack_builder`. `P` is `PDU_BITS`; the highest
bit of a vector is the first on air. One step is one rising clock edge. -/
namespace TetraBs.BlAck
open TetraBs.Run TetraBs.Bits TetraBs.Packing TetraBs.Serial TetraBs.Requests

/-- What is latched at the start. -/
structure Request where
  ssi : BitVec 24
  addrType : BitVec 3
  randomAccessFlag : Bool
  nr : Bool
deriving DecidableEq

structure Input where
  start : Bool
  request : Request

inductive State where
  | idle | pack | done
deriving DecidableEq

structure Builder (P : Nat) where
  state : State
  lat : Request
  pduBits : BitVec P
  valid : Bool

def Builder.reset (P : Nat) : Builder P := ⟨.idle, ⟨0, 0, false, false⟩, 0, false⟩

/-- The header and the LLC PDU: six octets. -/
def packed (r : Request) : BitVec 48 :=
  0#2 ++ (0#1 ++ (0#1 ++ (0#2 ++ (BitVec.ofBool r.randomAccessFlag ++ (6#6 ++ (r.addrType ++
    (r.ssi ++ (0#1 ++ (0#1 ++ (0#1 ++ (0#1 ++ (0#1 ++ (3#2 ++ BitVec.ofBool r.nr)))))))))))))

/-- `pdu_bits_c`. -/
def pduBitsC (P : Nat) (r : Request) : BitVec P := (packed r ++ 0#(P - 48)).setWidth P

section
variable {P : Nat}

def step (s : Builder P) (i : Input) : Builder P :=
  let s := { s with valid := false }
  match s.state with
  | .idle => if i.start then { s with lat := i.request, state := .pack } else s
  | .pack => { s with pduBits := pduBitsC P s.lat, state := .done }
  | .done => { s with valid := true, state := .idle }

/-- The block of every edge that raises `valid`. -/
def reader (P : Nat) : Reader (Builder P) Input (BitVec P) where
  next := step
  out s i := if (step s i).valid then [(step s i).pduBits] else []

theorem step_start {s : Builder P} (hs : s.state = .idle) {i : Input} (hi : i.start = true) :
    step s i = { s with valid := false, lat := i.request, state := .pack } := by
  simp only [step, hs, hi, if_true]

theorem step_waiting {s : Builder P} (hs : s.state = .idle) {i : Input} (hi : i.start = false) :
    step s i = { s with valid := false } := by
  simp only [step, hs, hi, Bool.false_eq_true, if_false]

/-- Three edges a request, whatever the inputs are at the two behind its start. -/
theorem reader_answers : Requests.Answers (reader P) Input.start 2 (fun i => pduBitsC P i.request)
    fun s => s.state = .idle where
  idle {s i} hs hi := by
    show (if (step s i).valid then _ else _) = _ ∧ (step s i).state = .idle
    rw [step_waiting hs hi]
    exact ⟨rfl, hs⟩
  busy {s i is} hs hi hlen := by
    obtain ⟨a, b, rfl⟩ := List.length_eq_two.1 hlen
    show (if (step s i).valid then _ else _) ++ (reader P).outputs (step s i) [a, b] = _ ∧
      ((reader P).after (step s i) [a, b]).state = .idle
    rw [step_start hs hi]
    exact ⟨rfl, rfl⟩

end

/-! The PDU in the block. -/

/-- The header it has in common with the blocks of the other builder. -/
def Request.header (r : Request) : MacResourceDl.Header :=
  ⟨r.randomAccessFlag, r.addrType, r.ssi, false, 0, false, 0, false, 0, 0⟩

theorem msbBits_packed (r : Request) :
    msbBits (packed r) 48 = r.header.bits false 6 ++ [false, false, true, true, r.nr] := by
  simp only [MacResourceDl.Header.bits, List.append_assoc]
  refine (msbBits_append (m := 2) (l := 46) _ _).trans (congrArg (List.append _) ?_)
  refine (msbBits_append (m := 1) (l := 45) _ _).trans (congrArg (List.append _) ?_)
  refine (msbBits_append (m := 1) (l := 44) _ _).trans (congrArg (List.append _) ?_)
  refine (msbBits_append (m := 2) (l := 42) _ _).trans (congrArg (List.append _) ?_)
  refine (msbBits_append (m := 1) (l := 41) _ _).trans (congrArg (List.append _) ?_)
  refine (msbBits_append (m := 6) (l := 35) _ _).trans (congrArg (List.append _) ?_)
  refine (msbBits_append (m := 3) (l := 32) _ _).trans (congrArg (List.append _) ?_)
  refine (msbBits_append (m := 24) (l := 8) _ _).trans (congrArg (List.append _) ?_)
  cases r.nr <;> rfl

theorem msbBits_pdu {P : Nat} (hP : 48 ≤ P) (r : Request) : msbBits (pduBitsC P r) P =
    r.header.bits false 6 ++
      ([false, false, true, true, r.nr] ++ List.replicate (P - 48) false) := by
  have hzeros : msbBits 0#(P - 48) (P - 48) = List.replicate (P - 48) false := by
    simp [msbBits]
  have hsum : P = 48 + (P - 48) := by omega
  have hall : msbBits (packed r ++ 0#(P - 48)) P =
      msbBits (packed r) 48 ++ msbBits 0#(P - 48) (P - 48) :=
    (congrArg (msbBits _) hsum).trans (msbBits_append _ _)
  rw [pduBitsC, msbBits_widen _ (Nat.le_refl P), hall, msbBits_packed, hzeros, List.append_assoc]

end TetraBs.BlAck
