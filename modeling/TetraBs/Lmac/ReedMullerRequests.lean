import Mathlib.Data.List.Forall2
import TetraBs.Lib.Requests
import TetraBs.Lmac.ReedMuller

/-! The answers of `tetra_reed_muller` to requests that come one after the other, with encodings at
any time between them and during a search. -/
namespace TetraBs.Lmac
open TetraBs.Hamming TetraBs.Pacing TetraBs.Requests TetraBs.Run TetraBs.Serial

namespace ReedMuller

/-- What the decoder shows with `decode_done`: the message, and `decode_error`. -/
def decoded : Reader ReedMuller RmInput (BitVec 14 × Bool) :=
  ⟨step, fun s i =>
    if (step s i).decodeDone then [((step s i).decodeDataOut, (step s i).decodeError)] else []⟩

/-- What the encoder shows with `encode_done`. -/
def encoded : Reader ReedMuller RmInput (BitVec 30) :=
  ⟨step, fun s i => if (step s i).encodeDone then [(step s i).encodeDataOut] else []⟩

/-- What a bounded-distance decoder has to say to a word: the message if at most `T_MAX` bits were
flipped, an error if no codeword is that near. -/
structure Answers (r : BitVec 30) (a : BitVec 14 × Bool) : Prop where
  corrects : ∀ u e, popcount30 e ≤ T_MAX → r = rmEncode u ^^^ e → a = (u, false)
  detects : (∀ u, T_MAX < popcount30 (rmEncode u ^^^ r)) → a.2 = true

/-- What the search through all candidates ends with. -/
def searched (r : BitVec 30) : BitVec 14 × Bool :=
  (BitVec.ofNat 14 (nearest (distAt r) 31 0x4000).1,
    decide (T_MAX < (nearest (distAt r) 31 0x4000).2))

theorem searched_answers (r : BitVec 30) : Answers r (searched r) where
  corrects u e he hr := by
    have hdist : distRaw r u = popcount30 e := by
      have hself : rmEncode u ^^^ rmEncode u = 0 := BitVec.xor_self
      rw [distRaw, hr, ← BitVec.xor_assoc, hself]
      exact congrArg popcount30 BitVec.zero_xor
    obtain ⟨hmsg, hnear⟩ := (nearest_message_iff r u).2 (hdist ▸ he)
    rw [searched, hmsg, decide_eq_false (Nat.not_lt.2 hnear)]
  detects hfar := by
    rw [searched, decide_eq_true_eq]
    obtain h | ⟨j, -, h⟩ := nearest_spec (distAt r) 31 0x4000
    · rw [h]
      decide
    · rw [h]
      exact hfar (BitVec.ofNat 14 j)

variable {s : ReedMuller} {i : RmInput} {r : BitVec 30} {k : Nat}

theorem decoded_silent (h : s.state ≠ .output) (i : RmInput) : decoded.out s i = [] := by
  have hdone : (step s i).decodeDone = false := by
    cases hs : s.state with
    | idle =>
      cases hv : i.decodeValid <;> simp [step, hs, hv]
    | decode => simp [step, hs]
    | output => exact absurd hs h
  simp [decoded, hdone]

theorem decoded_output (h : s.state = .output) (i : RmInput) :
    decoded.out s i = [(s.bestM, decide (T_MAX < s.bestDist))] := by
  simp [decoded, step, h]

theorem Searching.silent (h : Searching r k s) {is : List RmInput}
    (hk : k + is.length ≤ 0x4000) : decoded.outputs s is = [] := by
  induction is generalizing s k with
  | nil => rfl
  | cons i is ih =>
    rw [List.length_cons] at hk
    have hstate : s.state ≠ .output := by
      rw [h.state]
      exact RmPhase.noConfusion
    rw [Reader.outputs, decoded_silent hstate i, List.nil_append]
    cases is with
    | nil => rfl
    | cons j js =>
      rw [List.length_cons] at hk
      exact ih (h.step (by omega) i) (by rw [List.length_cons]; omega)

/-- The decoder, seen from its requests. -/
def answering : Reader Unit RmInput (BitVec 14 × Bool) :=
  ⟨fun u _ => u, fun _ i => [searched i.decodeDataIn]⟩

/-- A request keeps the decoder busy for `0x4001` cycles more, in which it takes no other one. -/
theorem serves :
    Serves decoded (fun i : RmInput => i.decodeValid) 0x4001 answering
      (fun _ s => s.state = .idle) where
  idle {_ s i} hs hi := by
    refine ⟨decoded_silent (by rw [hs]; exact RmPhase.noConfusion) i, ?_⟩
    have hnext : (step s i).state = .idle := by simp [step, hs, hi]
    exact hnext
  busy {_ s i is} hs hi his _ := by
    obtain ⟨js, last, done, rfl⟩ : ∃ js last done, is = js ++ [last] ++ [done] := by
      refine ⟨is.take 0x3FFF, is[0x3FFF], is[0x4000], ?_⟩
      rw [List.take_append_getElem, List.take_append_getElem, List.take_of_length_le (by omega)]
    have hlen : js.length = 0x3FFF := by simpa using his
    have hstart := searching_start hs hi
    have hsearch := hstart.run js (by omega)
    rw [hlen, Nat.zero_add] at hsearch
    obtain ⟨hbest, hdist⟩ := hsearch.best last
    have hout := hsearch.output last
    have hstate : s.state ≠ .output := by
      rw [hs]
      exact RmPhase.noConfusion
    have hsilent : decoded.outputs (step s i) (js ++ [last]) = [] :=
      hstart.silent (by rw [List.length_append, List.length_singleton]; omega)
    have hafter : decoded.after (step s i) (js ++ [last]) = step (exec step (step s i) js) last := by
      rw [Reader.after_eq_exec]
      exact exec_snoc step (step s i) js last
    have hnext : decoded.next s i = step s i := rfl
    rw [Reader.outputs, Reader.after, decoded_silent hstate i, hnext, Reader.outputs_append,
      decoded.after_append _ (js ++ [last]) [done], hsilent, hafter]
    generalize step (exec step (step s i) js) last = t at hbest hdist hout
    have hidle : (step t done).state = .idle := by simp [ReedMuller.step, hout]
    rw [Reader.outputs, decoded_output hout, hbest, hdist]
    exact ⟨rfl, hidle⟩

theorem answering_outputs (is : List RmInput) :
    answering.outputs () is = is.map fun i => searched i.decodeDataIn := by
  induction is with
  | nil => rfl
  | cons i is ih =>
    rw [Reader.outputs, List.map_cons, ← ih]
    rfl

theorem encoded_outputs (s : ReedMuller) (is : List RmInput) :
    encoded.outputs s is = (is.filter (·.encodeValid)).map fun i => rmEncode i.encodeDataIn := by
  induction is generalizing s with
  | nil => rfl
  | cons i is ih =>
    have hdone : (step s i).encodeDone = i.encodeValid := by
      cases hs : s.state <;> cases hv : i.decodeValid <;> simp [step, hs, hv]
    have hdata : (step s i).encodeDataOut =
        if i.encodeValid then rmEncode i.encodeDataIn else s.encodeDataOut := by
      cases hs : s.state <;> cases hv : i.decodeValid <;> simp [step, hs, hv]
    rw [Reader.outputs, ih]
    cases he : i.encodeValid <;> simp [encoded, hdone, hdata, he]

/-- Each word decoded in turn gets its answer, however close the requests follow each other, and
each message encoded in between its codeword. -/
theorem requests_answered (hs : s.state = .idle) {is quiet : List RmInput}
    (his : Apart (fun i : RmInput => i.decodeValid) 0x4001 is)
    (hquiet : ∀ i ∈ quiet, i.decodeValid = false) (hlen : 0x4001 ≤ quiet.length) :
    List.Forall₂ Answers ((is.filter (·.decodeValid)).map (·.decodeDataIn))
        (decoded.outputs s (is ++ quiet)) ∧
      encoded.outputs s (is ++ quiet) =
        ((is ++ quiet).filter (·.encodeValid)).map fun i => rmEncode i.encodeDataIn := by
  refine ⟨?_, encoded_outputs s _⟩
  obtain ⟨hout, -⟩ := serves.outputs (b := ()) hs his hquiet hlen
  rw [hout, answering_outputs, List.forall₂_map_left_iff, List.forall₂_map_right_iff]
  exact List.forall₂_same.2 fun i _ => searched_answers i.decodeDataIn

/-- Two words back to back, the second one with three bits flipped, and an encoding on the way. -/
def twoWords : List RmInput :=
  ⟨5, true, rmEncode 5, true⟩ :: List.replicate 0x4001 ⟨6, true, 0, false⟩ ++
    [⟨0, false, rmEncode 9 ^^^ 7, true⟩]

theorem twoWords_apart : Apart (fun i : RmInput => i.decodeValid) 0x4001 twoWords := by
  have hlast : Apart (fun i : RmInput => i.decodeValid) 0x4001
      [⟨0, false, rmEncode 9 ^^^ 7, true⟩] :=
    ⟨fun _ j hj => (List.not_mem_nil (List.mem_of_mem_take hj)).elim, trivial⟩
  refine hlast.block _ (fun j hj => ?_) ?_
  · rw [List.eq_of_mem_replicate hj]
  · rw [List.length_replicate]

theorem requests_answered_twoWords :
    List.Forall₂ Answers ((twoWords.filter (·.decodeValid)).map (·.decodeDataIn))
        (decoded.outputs reset
          (twoWords ++ List.replicate 0x4001 (⟨0, false, 0, false⟩ : RmInput))) ∧
      encoded.outputs reset (twoWords ++ List.replicate 0x4001 (⟨0, false, 0, false⟩ : RmInput)) =
        ((twoWords ++ List.replicate 0x4001 (⟨0, false, 0, false⟩ : RmInput)).filter
          (·.encodeValid)).map fun i => rmEncode i.encodeDataIn :=
  requests_answered (s := reset) rfl twoWords_apart
    (fun i hi => by rw [List.eq_of_mem_replicate hi]) (by rw [List.length_replicate])

end ReedMuller
end TetraBs.Lmac
