import TetraBs.Lib.Bits

/-! AXI4-Stream beats of the 32-bit streams between the framers and the DMA. Lane 31:24 is the
first byte on the wire. -/
namespace TetraBs.Infra
open TetraBs.Bits

abbrev Word := BitVec 32

def MAGIC_TMAS : Word := 0x544D4153
def MAGIC_TMAR : Word := 0x544D4152
def MAGIC_TMDC : Word := 0x544D4443

structure Beat where
  tdata : Word
  tkeep : BitVec 4
  tlast : Bool
deriving DecidableEq

def wordBytes (w : Word) : List Byte :=
  [w.extractLsb' 24 8, w.extractLsb' 16 8, w.extractLsb' 8 8, w.extractLsb' 0 8]

@[simp] theorem wordBytes_length (w : Word) : (wordBytes w).length = 4 := rfl

/-- The bytes of the lanes `keep` marks, first lane first. -/
def keptBytes (w : Word) (keep : BitVec 4) : List Byte :=
  (if keep.getLsbD 3 then [w.extractLsb' 24 8] else []) ++
    (if keep.getLsbD 2 then [w.extractLsb' 16 8] else []) ++
    (if keep.getLsbD 1 then [w.extractLsb' 8 8] else []) ++
    (if keep.getLsbD 0 then [w.extractLsb' 0 8] else [])

/-- What a beat means on the wire: its bytes, and whether the frame ends with them. -/
def Beat.wire (b : Beat) : List Byte × Bool := (keptBytes b.tdata b.tkeep, b.tlast)

/-- A full beat inside a frame. -/
def Beat.mid (w : Word) : Beat := ⟨w, 0b1111, false⟩

/-- The beats of a frame of full words: the last one carries `tlast`. -/
def frameBeats : List Word → List Beat
  | [] => []
  | [w] => [⟨w, 0b1111, true⟩]
  | w :: w' :: ws => Beat.mid w :: frameBeats (w' :: ws)

theorem frameBeats_cons (w : Word) {ws : List Word} (h : ws ≠ []) :
    frameBeats (w :: ws) = Beat.mid w :: frameBeats ws := by
  cases ws with
  | nil => exact absurd rfl h
  | cons w' ws => rfl

theorem frameBeats_append (us : List Word) {ws : List Word} (h : ws ≠ []) :
    frameBeats (us ++ ws) = us.map Beat.mid ++ frameBeats ws := by
  induction us with
  | nil => rfl
  | cons u us ih =>
    rw [List.cons_append, frameBeats_cons u (by simp [h]), ih]
    rfl

theorem frameBeats_range (f : Nat → Word) (a n : Nat) :
    frameBeats ((List.range' a n).map f) =
      (List.range' a n).map fun k => ⟨f k, 0b1111, k + 1 = a + n⟩ := by
  induction n generalizing a with
  | zero => rfl
  | succ n ih =>
    rw [List.range'_succ, List.map_cons, List.map_cons]
    cases n with
    | zero => simp [frameBeats]
    | succ m =>
      rw [frameBeats_cons _ (by simp), ih (a + 1)]
      have hlast : ¬ a + 1 = a + (m + 1 + 1) := by omega
      simp only [Beat.mid, hlast, decide_false, Nat.add_assoc, Nat.add_comm 1 (m + 1)]

theorem Beat.mid_wire (w : Word) : (Beat.mid w).wire = (wordBytes w, false) := by
  simp [Beat.mid, Beat.wire, keptBytes, wordBytes]

theorem keptBytes_take (w : Word) :
    keptBytes w 0b1000 = (wordBytes w).take 1 ∧ keptBytes w 0b1100 = (wordBytes w).take 2 ∧
      keptBytes w 0b1110 = (wordBytes w).take 3 ∧ keptBytes w 0b1111 = wordBytes w := by
  simp [keptBytes, wordBytes]

/-! Frames of bytes. -/

/-- What the first bytes of a frame of `n` bytes put on the wire: four bytes a beat, the rest
with the last byte. -/
def wireBeats : Nat → List Byte → List (List Byte × Bool)
  | n, b0 :: b1 :: b2 :: b3 :: bs => ([b0, b1, b2, b3], n == 4) :: wireBeats (n - 4) bs
  | n, bs => if bs ≠ [] ∧ bs.length = n then [(bs, true)] else []

theorem wireBeats_short {bs : List Byte} (h : bs.length < 4) (n : Nat) :
    wireBeats n bs = if bs ≠ [] ∧ bs.length = n then [(bs, true)] else [] := by
  match bs with
  | [] | [_] | [_, _] | [_, _, _] => rfl
  | _ :: _ :: _ :: _ :: _ =>
    simp only [List.length_cons] at h
    omega

theorem wireBeats_four {bs : List Byte} (h : bs.length = 4) (n : Nat) :
    wireBeats n bs = [(bs, n == 4)] := by
  match bs with
  | [b0, b1, b2, b3] => rfl

theorem wireBeats_append {us : List Byte} (h : us.length % 4 = 0) (n : Nat) (bs : List Byte) :
    wireBeats n (us ++ bs) = wireBeats n us ++ wireBeats (n - us.length) bs := by
  match us with
  | [] => simp [wireBeats]
  | [_] | [_, _] | [_, _, _] => simp at h
  | b0 :: b1 :: b2 :: b3 :: us =>
    have hlen : us.length % 4 = 0 := by
      simp only [List.length_cons] at h
      omega
    have hsub : n - (b0 :: b1 :: b2 :: b3 :: us).length = n - 4 - us.length := by
      simp only [List.length_cons]
      omega
    rw [hsub]
    change ([b0, b1, b2, b3], n == 4) :: wireBeats (n - 4) (us ++ bs) = _
    rw [wireBeats_append hlen]
    rfl

theorem extract_byte_append {w : Nat} (x : BitVec w) (y : BitVec 8) :
    (x ++ y).extractLsb' 0 8 = y := by
  apply BitVec.eq_of_getLsbD_eq
  intro i hi
  simp [BitVec.getLsbD_append, hi]

theorem extract_byte_append_left {w : Nat} (x : BitVec w) (y : BitVec 8) (k : Nat) :
    (x ++ y).extractLsb' (8 + k) 8 = x.extractLsb' k 8 := by
  apply BitVec.eq_of_getLsbD_eq
  intro i hi
  have hge : ¬ 8 + k + i < 8 := by omega
  have hsub : 8 + k + i - 8 = k + i := by omega
  simp [BitVec.getLsbD_append, hi, hge, hsub]

theorem wordBytes_append (a b c d : Byte) : wordBytes (a ++ b ++ c ++ d) = [a, b, c, d] := by
  have h0 := extract_byte_append (a ++ b ++ c) d
  have h1 := extract_byte_append_left (a ++ b ++ c) d 0
  have h2 := extract_byte_append_left (a ++ b ++ c) d 8
  have h3 := extract_byte_append_left (a ++ b ++ c) d 16
  rw [extract_byte_append] at h1
  rw [extract_byte_append_left (a ++ b) c 0, extract_byte_append] at h2
  rw [extract_byte_append_left (a ++ b) c 8, extract_byte_append_left a b 0] at h3
  have ha : a.extractLsb' 0 8 = a := by
    apply BitVec.eq_of_getLsbD_eq
    intro i hi
    simp [hi]
  rw [ha] at h3
  simp only [wordBytes, h0, h1, h2, h3]

/-- The bytes that the DMA writes for what crossed a link. -/
def wireBytes (bs : List (List Byte × Bool)) : List Byte := bs.flatMap Prod.fst

theorem wireBytes_append (bs cs : List (List Byte × Bool)) :
    wireBytes (bs ++ cs) = wireBytes bs ++ wireBytes cs := List.flatMap_append

theorem wireBytes_frameBeats (ws : List Word) :
    wireBytes ((frameBeats ws).map Beat.wire) = ws.flatMap wordBytes := by
  induction ws with
  | nil => rfl
  | cons w ws ih =>
    cases ws with
    | nil =>
      simp only [wireBytes, frameBeats, Beat.wire, List.map_cons, List.map_nil, List.flatMap_cons,
        List.flatMap_nil, (keptBytes_take w).2.2.2]
    | cons w' ws =>
      rw [frameBeats_cons w (List.cons_ne_nil _ _), List.map_cons, Beat.mid_wire,
        List.flatMap_cons, ← ih]
      rfl

/-- A complete frame puts its bytes on the wire. -/
theorem wireBytes_wireBeats {n : Nat} {bs : List Byte} (h : bs.length = n) :
    wireBytes (wireBeats n bs) = bs := by
  match bs with
  | [] => rfl
  | [_] | [_, _] | [_, _, _] => simp [wireBeats, wireBytes, h]
  | b0 :: b1 :: b2 :: b3 :: bs =>
    have hlen : bs.length = n - 4 := by
      simp only [List.length_cons] at h
      omega
    have hrest := wireBytes_wireBeats hlen
    simp only [wireBytes] at hrest
    simp [wireBeats, wireBytes, hrest]

end TetraBs.Infra
