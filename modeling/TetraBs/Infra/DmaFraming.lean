import TetraBs.Infra.AxisTransfer
import TetraBs.Dma.Receive

/-! The frames of the FPGA framers as the software receiver takes them. The receiver reads the
second word of a frame as the payload length; the packer puts the total length there, and the
TMAS framer two 16-bit fields. -/
namespace TetraBs.Infra
open TetraBs.Bits TetraBs.Dma TetraBs.Run TetraBs.Stream

/-- What the receiver finds first on a stream that begins with a packer frame of total length
`n + 8`. -/
theorem parse_packer {cap : Nat} {magic : Word} (hm : frameMagicIsKnown magic = true)
    {payload next : List Byte} {n : Nat} (hlen : payload.length = n) (hn : n < 2 ^ 16)
    (r : Nat) :
    parse cap (wordBytes magic ++ wordBytes (BitVec.ofNat 32 (n + 8)) ++ payload ++ next) ≠
      some (.frame payload, r) := by
  have hload : be32Load (wordBytes magic ++ wordBytes (BitVec.ofNat 32 (n + 8)) ++ payload ++
      next) = magic := by
    rw [List.append_assoc, List.append_assoc, be32Load_wordBytes]
  have hdecl : declaredLen (wordBytes magic ++ wordBytes (BitVec.ofNat 32 (n + 8)) ++ payload ++
      next) = n + 8 := by
    have hdrop : (wordBytes magic ++ wordBytes (BitVec.ofNat 32 (n + 8)) ++ payload ++
      next).drop 4 = wordBytes (BitVec.ofNat 32 (n + 8)) ++ (payload ++ next) := by
      simp [wordBytes]
    rw [declaredLen, hdrop, be32Load_wordBytes, BitVec.toNat_ofNat]
    omega
  have hge : DMA_FRAME_HEADER_BYTES ≤ (wordBytes magic ++ wordBytes (BitVec.ofNat 32 (n + 8)) ++
      payload ++ next).length := by
    simp only [List.length_append, wordBytes_length, DMA_FRAME_HEADER_BYTES]
    omega
  rw [← hload] at hm
  rcases Nat.lt_or_ge DMA_FRAME_MAX_PAYLOAD (n + 8) with hl | hl
  · rw [parse_long hge hm (by rwa [hdecl])]
    simp
  · rw [parse_fitting hge hm (by rwa [hdecl]), hdecl]
    split
    · simp
    · rename_i henough
      split
      · simp
      · intro heq
        have hpay := congrArg (fun x => x.map Prod.fst) heq
        simp only [Option.map_some, Option.some.injEq, Found.frame.injEq] at hpay
        have hlen' := congrArg List.length hpay
        rw [List.length_take, List.length_drop, hlen] at hlen'
        unfold DMA_FRAME_HEADER_BYTES at henough hlen'
        omega

/-- A TMAS frame's second word is far above the largest payload. -/
theorem parse_tmas {cap : Nat} (len : BitVec 11) (rest : List Byte) :
    parse cap (wordBytes MAGIC_TMAS ++ (wordBytes (BitVec.ofNat 16 (36 + (len.toNat + 7) / 8) ++
      len.setWidth 16) ++ rest)) = some (.badLength, DMA_FRAME_HEADER_BYTES) := by
  refine parse_long ?_ ?_ ?_
  · simp only [List.length_append, wordBytes_length, DMA_FRAME_HEADER_BYTES]
    omega
  · rw [be32Load_wordBytes]
    decide
  · have hdrop : (wordBytes MAGIC_TMAS ++ (wordBytes (BitVec.ofNat 16 (36 + (len.toNat + 7) / 8) ++
      len.setWidth 16) ++ rest)).drop 4 =
        wordBytes (BitVec.ofNat 16 (36 + (len.toNat + 7) / 8) ++ len.setWidth 16) ++ rest := by
      simp [wordBytes]
    rw [declaredLen, hdrop, be32Load_wordBytes, BitVec.toNat_append, BitVec.toNat_ofNat]
    refine Nat.lt_of_lt_of_le ?_ Nat.left_le_or
    rw [Nat.shiftLeft_eq]
    have := len.isLt
    rw [DMA_FRAME_MAX_PAYLOAD]
    omega

theorem selectMagic_known (sel : BitVec 2) : frameMagicIsKnown (Packer.selectMagic sel) = true := by
  have hcases : sel = 0 ∨ sel = 1 ∨ sel = 2 ∨ sel = 3 := by bv_omega
  rcases hcases with rfl | rfl | rfl | rfl <;> decide

/-- What crossed a link, as bytes. -/
def wireOf {σ ρ : Type} (t : Traffic σ Beat ρ) : List Byte := wireBytes (t.sent.map Beat.wire)

/-- The frames and errors of a receiver that is fed `stream`. -/
def received (cap : Nat) (stream : List Byte) (cs : List Call) : List Found :=
  foundIn (exec (call cap) (start stream) cs).results

theorem received_head {cap : Nat} {stream : List Byte} {cs : List Call} {o : Found}
    (h : (received cap stream cs).head? = some o) : ∃ n, parse cap stream = some (o, n) :=
  (run_consistent cap stream cs).read.head h

theorem tmas_disagrees {is : List TmasapRx.Input} {t : Traffic TmasapRx.State Beat
    (List TmasapRx.Request)} (ht : exec (Traffic.edge TmasapRx.source TmasapRx.note)
      (Traffic.start TmasapRx.reset []) is = t)
    (ha : Along (Traffic.edge TmasapRx.source TmasapRx.note) TmasapRx.Meets
      (Traffic.start TmasapRx.reset []) is)
    (hst : t.state.state = .idle) (hv : t.state.tvalid = false) {pdu : BitVec 129}
    {len : BitVec 11} {ssi : BitVec 24} {ssiType : BitVec 3} {endpoint scrambling : Word}
    {log : List TmasapRx.Request}
    (hlog : t.log = .tmas pdu len ssi ssiType endpoint scrambling :: log)
    (cap : Nat) (next : List Byte) (cs : List Call) (payload : List Byte) :
    (received cap (wireOf t ++ next) cs).head? ≠ some (.frame payload) := by
  intro hhead
  obtain ⟨n, hn⟩ := received_head hhead
  subst ht
  obtain ⟨hq, ho⟩ := TmasapRx.at_rest hst hv
  have hsent := (TmasapRx.delivered ha).complete hq ho
  rw [List.map_id] at hsent
  have hwire : ∃ rest, wireOf (exec (Traffic.edge TmasapRx.source TmasapRx.note)
      (Traffic.start TmasapRx.reset []) is) ++ next = wordBytes MAGIC_TMAS ++
        (wordBytes (BitVec.ofNat 16 (36 + (len.toNat + 7) / 8) ++ len.setWidth 16) ++ rest) := by
    rw [wireOf, hsent, hlog, TmasapRx.words, List.flatMap_cons, List.map_append, wireBytes_append,
      TmasapRx.Request.beats, wireBytes_frameBeats, TmasapRx.Request.words, List.flatMap_append,
      List.flatMap_cons, List.flatMap_cons]
    simp only [List.append_assoc]
    exact ⟨_, rfl⟩
  obtain ⟨rest, hrest⟩ := hwire
  rw [hrest, parse_tmas] at hn
  cases hn

theorem packer_disagrees {ks : List Packer.Input} {t : Traffic Packer.State Beat
    (List Packer.Frame)} (ht : exec (Traffic.edge Packer.source Packer.note)
      (Traffic.start Packer.reset []) ks = t)
    (ha : Along (Traffic.edge Packer.source Packer.note) Packer.Meets
      (Traffic.start Packer.reset []) ks)
    (hst : t.state.state = .idle) (hv : t.state.tvalid = false) {f : Packer.Frame}
    {log : List Packer.Frame} (hlog : t.log = f :: log)
    (hlen : f.bytes.length = f.payloadLenBytes.toNat)
    (cap : Nat) (next : List Byte) (cs : List Call) :
    (received cap (wireOf t ++ next) cs).head? ≠ some (.frame f.bytes) := by
  intro hhead
  obtain ⟨n, hn⟩ := received_head hhead
  subst ht
  obtain ⟨hq, ho⟩ := Packer.at_rest hst hv
  have hsent := (Packer.delivered ha).complete hq ho
  have hframe : wireBytes f.beats = f.header ++ f.bytes := by
    refine wireBytes_wireBeats ?_
    rw [List.length_append, Packer.header_length, hlen, Nat.add_comm]
  rw [wireOf, hsent, hlog, Packer.words, List.flatMap_cons, wireBytes_append, hframe,
    Packer.Frame.header, List.append_assoc _ _ next] at hn
  exact parse_packer (selectMagic_known _) hlen f.payloadLenBytes.isLt n hn

/-- In every run of the TMAS framer that the transfer law covers and whose first frame is a TMAS
frame, and in every such run of the packer whose first frame is complete, once the framer has come
to rest: whatever follows on the channel and however it is read, the first thing the receiver
finds is not that frame's payload; of a TMAS frame it is no frame at all. -/
theorem framing_disagrees (is : List TmasapRx.Input) (ks : List Packer.Input) (cap : Nat)
    (next : List Byte) (cs : List Call) :
    (Along (Traffic.edge TmasapRx.source TmasapRx.note) TmasapRx.Meets
        (Traffic.start TmasapRx.reset []) is →
      let t := exec (Traffic.edge TmasapRx.source TmasapRx.note) (Traffic.start TmasapRx.reset []) is
      t.state.state = .idle → t.state.tvalid = false →
      ∀ pdu len ssi ssiType endpoint scrambling log,
        t.log = .tmas pdu len ssi ssiType endpoint scrambling :: log →
        ∀ payload, (received cap (wireOf t ++ next) cs).head? ≠ some (.frame payload)) ∧
    (Along (Traffic.edge Packer.source Packer.note) Packer.Meets
        (Traffic.start Packer.reset []) ks →
      let t := exec (Traffic.edge Packer.source Packer.note) (Traffic.start Packer.reset []) ks
      t.state.state = .idle → t.state.tvalid = false →
      ∀ f log, t.log = f :: log → f.bytes.length = f.payloadLenBytes.toNat →
        (received cap (wireOf t ++ next) cs).head? ≠ some (.frame f.bytes)) := by
  constructor
  · intro ha t hst hv pdu len ssi ssiType endpoint scrambling log hlog payload
    exact tmas_disagrees rfl ha hst hv hlog cap next cs payload
  · intro ha t hst hv f log hlog hlen
    exact packer_disagrees rfl ha hst hv hlog hlen cap next cs

/-- One packer frame with four payload bytes, the sink always ready. -/
theorem framing_disagrees_packer_run :
    (received 4096 (wireOf (exec (Traffic.edge Packer.source Packer.note)
      (Traffic.start Packer.reset []) (packerRun (List.replicate 10 true))) ++ [])
        [⟨true, [.data 12]⟩]).head? ≠ some (.frame [0xA5, 0xA5, 0xA5, 0xA5]) :=
  (framing_disagrees [] (packerRun (List.replicate 10 true)) 4096 [] [⟨true, [.data 12]⟩]).2
    (by decide +kernel) (by decide +kernel) (by decide +kernel)
    ⟨0, 4, [0xA5, 0xA5, 0xA5, 0xA5]⟩ [] rfl rfl

/-- Two packer frames are taken as one frame of twelve bytes, and a TMAS frame is no frame. -/
theorem first_frame_swallows_header :
    received 4096 (wireBytes (Packer.words [⟨0, 4, [1, 2, 3, 4]⟩, ⟨0, 4, [5, 6, 7, 8]⟩]))
        [⟨true, [.data 24]⟩, ⟨true, []⟩] =
      [.frame [1, 2, 3, 4, 0x54, 0x4D, 0x41, 0x53, 0, 0, 0, 12]] ∧
    received 4096 (wireBytes ((TmasapRx.words [.tmas 1 129 7 1 0 0]).map Beat.wire))
        [⟨true, [.data 100]⟩] = [.badLength] := by
  decide +kernel

end TetraBs.Infra
