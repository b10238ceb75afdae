import TetraBs.Core.MsgBus
import TetraBs.Lib.History

/-! The message bus over its storage: the entries and the payload bytes of all three buckets lie in
two arrays that the caller supplies, and a payload is copied into the slot of its entry. The bus
that passes its messages by value is what this one shows. `size_t` has `w` bits. -/
namespace TetraBs.BusStorage
open TetraBs.Bits TetraBs.Memory
variable {w : Nat} {κ : Type*}

structure MsgBusEntry where
  src : SapId
  dest : SapId
  sap : SapId
  len : Nat
  inUse : Bool

/-- `entries` and `payloads` are where the bucket starts in the two arrays. -/
structure MsgBusQueue (w : Nat) where
  entries : Nat
  payloads : Nat
  cap : Nat
  maxPayload : Nat
  head : Nat
  tail : Nat
  count : Nat
  drops : BitVec w

structure MsgBus (w : Nat) (κ : Type*) where
  entryStorage : List MsgBusEntry
  payloadStorage : List Byte
  queues : MsgPriority → MsgBusQueue w
  regs : List (MsgBusReg κ)
  regs_le : regs.length ≤ msgbusRegCap

/-- A payload pointer: into memory of the caller, or into the payload storage of the bus. -/
inductive Pointer where
  | null
  | caller (bytes : List Byte)
  | storage (addr : Nat)

/-- A message as it is posted and as a handler gets it. -/
structure MsgRef where
  src : SapId
  dest : SapId
  sap : SapId
  len : Nat
  payload : Pointer

structure MsgBusCfg where
  queueCapPerPrio : Nat
  maxPayloadBytes : Nat
  entryStorage : List MsgBusEntry
  payloadStorage : List Byte

def zeroEntry : MsgBusEntry := ⟨.none, .none, .none, 0, false⟩

def prioIndex : MsgPriority → Nat
  | .high => 0
  | .normal => 1
  | .low => 2

def msgbusInit (w : Nat) (κ : Type*) (cfg : MsgBusCfg) : Except Errno (MsgBus w κ) :=
  let totalEntries := cfg.queueCapPerPrio * 3
  let needPayload := totalEntries * cfg.maxPayloadBytes
  if cfg.queueCapPerPrio = 0 ∨ cfg.maxPayloadBytes = 0 then .error .EINVAL
  else if cfg.entryStorage.length < totalEntries ∨ cfg.payloadStorage.length < needPayload then
    .error .EINVAL
  else
    .ok {
      entryStorage := writeAt cfg.entryStorage 0 (List.replicate totalEntries zeroEntry)
      payloadStorage := writeAt cfg.payloadStorage 0 (List.replicate needPayload 0)
      queues := fun p =>
        ⟨prioIndex p * cfg.queueCapPerPrio,
          prioIndex p * cfg.queueCapPerPrio * cfg.maxPayloadBytes,
          cfg.queueCapPerPrio, cfg.maxPayloadBytes, 0, 0, 0, 0⟩
      regs := []
      regs_le := Nat.zero_le _ }

def msgbusRegister (bus : MsgBus w κ) (dest sap : SapId) (cb : κ) : Except Errno (MsgBus w κ) :=
  if sapIdIsValid dest = false ∨ sapIdIsValid sap = false then .error .EINVAL
  else if h : msgbusRegCap ≤ bus.regs.length then .error .ENOSPC
  else .ok { bus with regs := bus.regs ++ [⟨dest, sap, cb⟩],
                      regs_le := by rw [List.length_append]; exact Nat.lt_of_not_le h }

def queuePayloadSlot (q : MsgBusQueue w) (idx : Nat) : Nat := q.payloads + idx * q.maxPayload

def MsgBus.setQueue (bus : MsgBus w κ) (p : MsgPriority) (q : MsgBusQueue w) : MsgBus w κ :=
  { bus with queues := fun p' => if p' = p then q else bus.queues p' }

/-- The bytes that a message's pointer and length stand for. -/
def MsgBus.bytesOf (bus : MsgBus w κ) (msg : MsgRef) : List Byte :=
  match msg.payload with
  | .null => []
  | .caller bytes => bytes.take msg.len
  | .storage addr => readAt bus.payloadStorage addr msg.len

def msgbusPost (bus : MsgBus w κ) (prio : MsgPriority) (msg : MsgRef) :
    MsgBus w κ × Option Errno :=
  let q := bus.queues prio
  if sapIdIsValid msg.dest = false ∨ sapIdIsValid msg.sap = false then (bus, some .EINVAL)
  else if q.maxPayload < msg.len then (bus, some .E2BIG)
  else if q.count = q.cap then (bus.setQueue prio { q with drops := q.drops + 1 }, some .ENOSPC)
  else
    let entryStorage := bus.entryStorage.set (q.entries + q.tail)
      ⟨msg.src, msg.dest, msg.sap, msg.len, true⟩
    let payloadStorage :=
      match msg.payload with
      | .null => bus.payloadStorage
      | _ =>
        if 0 < msg.len then
          writeAt bus.payloadStorage (queuePayloadSlot q q.tail) (bus.bytesOf msg)
        else bus.payloadStorage
    ({ bus with entryStorage := entryStorage, payloadStorage := payloadStorage }.setQueue prio
      { q with tail := (q.tail + 1) % q.cap, count := q.count + 1 }, none)

def nextNonemptyQueue (bus : MsgBus w κ) : Option MsgPriority :=
  [MsgPriority.high, .normal, .low].find? fun p => 0 < (bus.queues p).count

def entryAt (entries : List MsgBusEntry) (q : MsgBusQueue w) (idx : Nat) : MsgBusEntry :=
  entries.getD (q.entries + idx) zeroEntry

/-- The message that a dispatch hands to the handlers: its payload stays in the slot. -/
def headMsg (bus : MsgBus w κ) (p : MsgPriority) : MsgRef :=
  let q := bus.queues p
  let e := entryAt bus.entryStorage q q.head
  ⟨e.src, e.dest, e.sap, e.len, if 0 < e.len then .storage (queuePayloadSlot q q.head) else .null⟩

/-- Free the entry just dispatched. -/
def msgbusAdvance (bus : MsgBus w κ) (p : MsgPriority) : MsgBus w κ :=
  let q := bus.queues p
  let e := entryAt bus.entryStorage q q.head
  { bus with entryStorage := bus.entryStorage.set (q.entries + q.head) { e with inUse := false } }.setQueue
    p { q with head := (q.head + 1) % q.cap, count := q.count - 1 }

/-- The callbacks registered for the key of `msg`, in registration order. -/
def matchingRegs (bus : MsgBus w κ) (msg : MsgRef) : List κ :=
  (bus.regs.filter fun r => r.dest == msg.dest && r.sap == msg.sap).map MsgBusReg.cb

def msgbusDrops (bus : MsgBus w κ) (p : MsgPriority) : BitVec w := (bus.queues p).drops

/-! What the storage shows. -/

/-- A message with its bytes. -/
def MsgBus.valueOf (bus : MsgBus w κ) (msg : MsgRef) : SapMsg (List Byte) :=
  ⟨msg.src, msg.dest, msg.sap, msg.len, bus.bytesOf msg⟩

/-- What a slot of a bucket holds. -/
def slotAt (entries : List MsgBusEntry) (payloads : List Byte) (q : MsgBusQueue w) (idx : Nat) :
    SapMsg (List Byte) :=
  let e := entryAt entries q idx
  ⟨e.src, e.dest, e.sap, e.len, readAt payloads (queuePayloadSlot q idx) e.len⟩

/-- A payload pointer is only absent for an empty payload, and points to that many bytes. -/
def MsgBus.Sound (bus : MsgBus w κ) (msg : MsgRef) : Prop :=
  (bus.bytesOf msg).length = msg.len

/-- A bucket of `c` slots of `m` bytes at its place in the arrays holds what the by-value bucket
holds. -/
structure ShowsQueue (c m : Nat) (p : MsgPriority) (entries : List MsgBusEntry)
    (payloads : List Byte) (q : MsgBusQueue w) (r : TetraBs.MsgBusQueue (List Byte)) : Prop where
  entries_eq : q.entries = prioIndex p * c
  payloads_eq : q.payloads = prioIndex p * c * m
  cap_eq : q.cap = c ∧ r.ring.cap = c
  maxPayload_eq : q.maxPayload = m ∧ r.maxPayload = m
  head_eq : q.head = r.ring.head
  tail_eq : q.tail = r.ring.tail
  count_eq : q.count = r.ring.count
  drops_eq : q.drops = BitVec.ofNat w r.drops
  len_le {k : Nat} : k < c → (entryAt entries q k).len ≤ m
  slots {k : Nat} : k < c → slotAt entries payloads q k = r.ring.slots.getD k default

/-- The three buckets lie one behind the other. -/
structure Shows (c m : Nat) (b : MsgBus w κ) (bus : TetraBs.MsgBus (List Byte) κ) : Prop where
  regs : b.regs = bus.regs
  entries_len : 3 * c ≤ b.entryStorage.length
  payloads_len : 3 * c * m ≤ b.payloadStorage.length
  queue (p : MsgPriority) :
    ShowsQueue c m p b.entryStorage b.payloadStorage (b.queues p) (bus.queues p)

/-- The number of a slot among those of all buckets. -/
def slotNo (c : Nat) (p : MsgPriority) (k : Nat) : Nat := prioIndex p * c + k

theorem slotNo_lt {c k : Nat} (p : MsgPriority) (hk : k < c) : slotNo c p k < 3 * c := by
  cases p <;> simp only [slotNo, prioIndex] <;> omega

theorem slotNo_inj {c k k' : Nat} {p p' : MsgPriority} (hk : k < c) (hk' : k' < c)
    (h : slotNo c p k = slotNo c p' k') : p = p' ∧ k = k' := by
  cases p <;> cases p' <;> simp only [slotNo, prioIndex] at h <;>
    first
      | exact ⟨rfl, by omega⟩
      | omega

namespace ShowsQueue
variable {c m : Nat} {p : MsgPriority} {entries : List MsgBusEntry} {payloads : List Byte}
  {q : MsgBusQueue w} {r : TetraBs.MsgBusQueue (List Byte)}

theorem entry_no (h : ShowsQueue c m p entries payloads q r) (k : Nat) :
    q.entries + k = slotNo c p k := by
  rw [h.entries_eq, slotNo]

theorem slot_address (h : ShowsQueue c m p entries payloads q r) (k : Nat) :
    queuePayloadSlot q k = slotNo c p k * m := by
  rw [queuePayloadSlot, h.payloads_eq, h.maxPayload_eq.1, slotNo, Nat.add_mul]

theorem tail_lt (h : ShowsQueue c m p entries payloads q r) : q.tail < c := by
  rw [h.tail_eq, r.ring.tail_eq, ← h.cap_eq.2]
  exact r.ring.index_lt _

theorem head_lt (h : ShowsQueue c m p entries payloads q r) : q.head < c := by
  rw [h.head_eq, ← h.cap_eq.2]
  exact r.ring.head_lt

theorem full_iff (h : ShowsQueue c m p entries payloads q r) :
    q.count = q.cap ↔ ¬ r.ring.count < r.ring.cap := by
  have hle := r.ring.count_le
  rw [h.count_eq, h.cap_eq.1, h.cap_eq.2]
  rw [h.cap_eq.2] at hle
  omega

/-- A refused post only counts. -/
theorem drop (h : ShowsQueue c m p entries payloads q r) :
    ShowsQueue c m p entries payloads { q with drops := q.drops + 1 }
      { r with drops := r.drops + 1 } where
  entries_eq := h.entries_eq
  payloads_eq := h.payloads_eq
  cap_eq := h.cap_eq
  maxPayload_eq := h.maxPayload_eq
  head_eq := h.head_eq
  tail_eq := h.tail_eq
  count_eq := h.count_eq
  drops_eq := by
    rw [BitVec.ofNat_add, ← h.drops_eq]
    rfl
  len_le := h.len_le
  slots := h.slots

theorem entryAt_set (h : ShowsQueue c m p entries payloads q r) (hlen : 3 * c ≤ entries.length)
    (p' : MsgPriority) {j k : Nat} (hj : j < c) (hk : k < c) (e : MsgBusEntry) :
    entryAt (entries.set (slotNo c p' j) e) q k =
      if p = p' ∧ k = j then e else entryAt entries q k := by
  rw [entryAt, entryAt, h.entry_no, List.getD_eq_getElem?_getD, List.getD_eq_getElem?_getD,
    List.getElem?_set]
  by_cases hsame : p = p' ∧ k = j
  · obtain ⟨rfl, rfl⟩ := hsame
    have hlt := Nat.lt_of_lt_of_le (slotNo_lt p hj) hlen
    simp [hlt]
  · have hne : slotNo c p' j ≠ slotNo c p k := by
      intro heq
      obtain ⟨hp, hkj⟩ := slotNo_inj hj hk heq
      exact hsame ⟨hp.symm, hkj.symm⟩
    rw [if_neg hne, if_neg hsame]

/-- A slot that is written holds the message, and every other slot what it held. -/
theorem slotAt_write (h : ShowsQueue c m p entries payloads q r) (hlen : 3 * c ≤ entries.length)
    (hbytes : 3 * c * m ≤ payloads.length) (p' : MsgPriority) {j k : Nat} (hj : j < c)
    (hk : k < c) {e : MsgBusEntry} {bs : List Byte} (hbs : bs.length = e.len)
    (hfit : e.len ≤ m) :
    slotAt (entries.set (slotNo c p' j) e) (writeAt payloads (slotNo c p' j * m) bs) q k =
      if p = p' ∧ k = j then ⟨e.src, e.dest, e.sap, e.len, bs⟩ else slotAt entries payloads q k := by
  have hend : slotNo c p' j * m + bs.length ≤ payloads.length := by
    rw [hbs]
    exact Nat.le_trans (block_end (slotNo_lt p' hj) hfit) hbytes
  rw [slotAt, h.entryAt_set hlen p' hj hk, h.slot_address]
  by_cases hsame : p = p' ∧ k = j
  · rw [if_pos hsame, if_pos hsame]
    obtain ⟨rfl, rfl⟩ := hsame
    simp only [← hbs, readAt_writeAt hend]
  · have hne : slotNo c p k ≠ slotNo c p' j := by
      intro heq
      exact hsame (slotNo_inj hk hj heq)
    have hapart := blocks_apart hne (h.len_le hk) (Nat.le_trans (Nat.le_of_eq hbs) hfit)
    rw [if_neg hsame, if_neg hsame, slotAt, h.slot_address]
    simp only [readAt_writeAt_apart hend hapart]

/-- Memory that holds the same in the bucket's slots. -/
theorem frame (h : ShowsQueue c m p entries payloads q r) {entries' : List MsgBusEntry}
    {payloads' : List Byte} (hentry : ∀ k < c, entryAt entries' q k = entryAt entries q k)
    (hslot : ∀ k < c, slotAt entries' payloads' q k = slotAt entries payloads q k) :
    ShowsQueue c m p entries' payloads' q r where
  entries_eq := h.entries_eq
  payloads_eq := h.payloads_eq
  cap_eq := h.cap_eq
  maxPayload_eq := h.maxPayload_eq
  head_eq := h.head_eq
  tail_eq := h.tail_eq
  count_eq := h.count_eq
  drops_eq := h.drops_eq
  len_le {k} hk := by
    rw [hentry k hk]
    exact h.len_le hk
  slots {k} hk := by
    rw [hslot k hk]
    exact h.slots hk

/-- Another bucket does not see the slot. -/
theorem write_apart (h : ShowsQueue c m p entries payloads q r) (hlen : 3 * c ≤ entries.length)
    (hbytes : 3 * c * m ≤ payloads.length) {p' : MsgPriority} {j : Nat} (hj : j < c)
    (hp : p ≠ p') {e : MsgBusEntry} {bs : List Byte} (hbs : bs.length = e.len)
    (hfit : e.len ≤ m) :
    ShowsQueue c m p (entries.set (slotNo c p' j) e) (writeAt payloads (slotNo c p' j * m) bs)
      q r := by
  refine h.frame (fun k hk => ?_) fun k hk => ?_
  · rw [h.entryAt_set hlen p' hj hk, if_neg fun hsame => hp hsame.1]
  · rw [h.slotAt_write hlen hbytes p' hj hk hbs hfit, if_neg fun hsame => hp hsame.1]

theorem free_apart (h : ShowsQueue c m p entries payloads q r) (hlen : 3 * c ≤ entries.length)
    {p' : MsgPriority} {j : Nat} (hj : j < c) (hp : p ≠ p') (e : MsgBusEntry) :
    ShowsQueue c m p (entries.set (slotNo c p' j) e) payloads q r := by
  have hentry : ∀ k < c, entryAt (entries.set (slotNo c p' j) e) q k = entryAt entries q k :=
    fun k hk => by rw [h.entryAt_set hlen p' hj hk, if_neg fun hsame => hp hsame.1]
  refine h.frame hentry fun k hk => ?_
  rw [slotAt, hentry k hk]
  rfl

/-- The bucket with the message behind its tail. -/
theorem push (h : ShowsQueue c m p entries payloads q r) (hlen : 3 * c ≤ entries.length)
    (hbytes : 3 * c * m ≤ payloads.length) {e : MsgBusEntry} {bs : List Byte}
    (hbs : bs.length = e.len) (hfit : e.len ≤ m) (hroom : r.ring.count < r.ring.cap) :
    ShowsQueue c m p (entries.set (slotNo c p q.tail) e)
      (writeAt payloads (slotNo c p q.tail * m) bs)
      { q with tail := (q.tail + 1) % q.cap, count := q.count + 1 }
      { r with ring := r.ring.push ⟨e.src, e.dest, e.sap, e.len, bs⟩ hroom } where
  entries_eq := h.entries_eq
  payloads_eq := h.payloads_eq
  cap_eq := h.cap_eq
  maxPayload_eq := h.maxPayload_eq
  head_eq := h.head_eq
  tail_eq := by
    simp only [Ring.push, h.tail_eq, h.cap_eq.1, h.cap_eq.2]
  count_eq := congrArg (· + 1) h.count_eq
  drops_eq := h.drops_eq
  len_le {k} hk := by
    have hset := h.entryAt_set hlen p h.tail_lt hk e
    change (entryAt (entries.set (slotNo c p q.tail) e) q k).len ≤ m
    rw [hset]
    split
    · exact hfit
    · exact h.len_le hk
  slots {k} hk := by
    have hwrite := h.slotAt_write hlen hbytes p h.tail_lt hk hbs hfit
    have htail : r.ring.tail < r.ring.slots.length := by
      rw [← h.tail_eq, r.ring.slots_len, h.cap_eq.2]
      exact h.tail_lt
    change slotAt _ _ q k = (r.ring.slots.set r.ring.tail _).getD k default
    rw [hwrite, List.getD_eq_getElem?_getD, List.getElem?_set, h.tail_eq]
    by_cases hk' : k = r.ring.tail
    · rw [if_pos ⟨rfl, hk'⟩, if_pos hk'.symm, if_pos htail]
      rfl
    · rw [if_neg fun hsame => hk' hsame.2, if_neg fun hsame => hk' hsame.symm, h.slots hk,
        List.getD_eq_getElem?_getD]

/-- The bucket without its oldest message: the slot keeps its contents. -/
theorem pop (h : ShowsQueue c m p entries payloads q r) (hlen : 3 * c ≤ entries.length)
    (hpos : 0 < r.ring.count) :
    ShowsQueue c m p
      (entries.set (slotNo c p q.head) { entryAt entries q q.head with inUse := false }) payloads
      { q with head := (q.head + 1) % q.cap, count := q.count - 1 }
      { r with ring := r.ring.pop hpos } where
  entries_eq := h.entries_eq
  payloads_eq := h.payloads_eq
  cap_eq := h.cap_eq
  maxPayload_eq := h.maxPayload_eq
  head_eq := by
    simp only [Ring.pop, h.head_eq, h.cap_eq.1, h.cap_eq.2]
  tail_eq := h.tail_eq
  count_eq := congrArg (· - 1) h.count_eq
  drops_eq := h.drops_eq
  len_le {k} hk := by
    have hset := h.entryAt_set hlen p h.head_lt hk
      { entryAt entries q q.head with inUse := false }
    change (entryAt (entries.set (slotNo c p q.head) _) q k).len ≤ m
    rw [hset]
    split
    · exact h.len_le h.head_lt
    · exact h.len_le hk
  slots {k} hk := by
    have hset := h.entryAt_set hlen p h.head_lt hk
      { entryAt entries q q.head with inUse := false }
    change slotAt (entries.set (slotNo c p q.head) _) payloads q k = r.ring.slots.getD k default
    rw [← h.slots hk, slotAt, slotAt, hset]
    split
    · rename_i hsame
      rw [hsame.2]
    · rfl

end ShowsQueue

namespace Shows
variable {c m : Nat} {b : MsgBus w κ} {bus : TetraBs.MsgBus (List Byte) κ}

/-- The head slot holds the oldest message. -/
theorem headMsg_value (h : Shows c m b bus) (p : MsgPriority) :
    b.valueOf (headMsg b p) = (bus.queues p).ring.peek := by
  have hq := h.queue p
  rw [Ring.peek, ← hq.head_eq, ← hq.slots hq.head_lt]
  simp only [MsgBus.valueOf, headMsg, slotAt, MsgBus.bytesOf]
  by_cases hlen : 0 < (entryAt b.entryStorage (b.queues p) (b.queues p).head).len
  · simp only [hlen, if_true]
  · have hzero := Nat.eq_zero_of_not_pos hlen
    simp only [hzero, Nat.lt_irrefl, if_false, readAt_zero]

theorem headMsg_sound (h : Shows c m b bus) (p : MsgPriority) : b.Sound (headMsg b p) := by
  have hq := h.queue p
  have hend := block_end (slotNo_lt p hq.head_lt) (hq.len_le hq.head_lt)
  have hstore := h.payloads_len
  simp only [MsgBus.Sound, headMsg, MsgBus.bytesOf]
  by_cases hpos : 0 < (entryAt b.entryStorage (b.queues p) (b.queues p).head).len
  · simp only [hpos, if_true]
    rw [readAt, List.length_take, List.length_drop, hq.slot_address]
    omega
  · have hzero := Nat.eq_zero_of_not_pos hpos
    simp only [hzero, Nat.lt_irrefl, if_false]
    rfl

theorem nextNonemptyQueue_eq (h : Shows c m b bus) :
    nextNonemptyQueue b = TetraBs.nextNonemptyQueue bus := by
  simp only [nextNonemptyQueue, TetraBs.nextNonemptyQueue, (h.queue _).count_eq]

end Shows

/-! Posts of the two buses, case by case. -/

def Refused (dest sap : SapId) : Prop := sapIdIsValid dest = false ∨ sapIdIsValid sap = false

theorem post_invalid {b : MsgBus w κ} {p : MsgPriority} {msg : MsgRef}
    (h : Refused msg.dest msg.sap) : msgbusPost b p msg = (b, some .EINVAL) := if_pos h

theorem post_too_big {b : MsgBus w κ} {p : MsgPriority} {msg : MsgRef}
    (h : ¬ Refused msg.dest msg.sap) (hbig : (b.queues p).maxPayload < msg.len) :
    msgbusPost b p msg = (b, some .E2BIG) := by
  rw [msgbusPost]
  exact (if_neg h).trans (if_pos hbig)

theorem post_full {b : MsgBus w κ} {p : MsgPriority} {msg : MsgRef}
    (h : ¬ Refused msg.dest msg.sap) (hbig : ¬ (b.queues p).maxPayload < msg.len)
    (hfull : (b.queues p).count = (b.queues p).cap) :
    msgbusPost b p msg =
      (b.setQueue p { b.queues p with drops := (b.queues p).drops + 1 }, some .ENOSPC) := by
  rw [msgbusPost]
  exact (if_neg h).trans ((if_neg hbig).trans (if_pos hfull))

/-- A sound message is stored with all its bytes. -/
theorem post_stored {b : MsgBus w κ} {p : MsgPriority} {msg : MsgRef} (hs : b.Sound msg)
    (h : ¬ Refused msg.dest msg.sap) (hbig : ¬ (b.queues p).maxPayload < msg.len)
    (hfull : ¬ (b.queues p).count = (b.queues p).cap) :
    msgbusPost b p msg =
      ({ b with
          entryStorage := b.entryStorage.set ((b.queues p).entries + (b.queues p).tail)
            ⟨msg.src, msg.dest, msg.sap, msg.len, true⟩
          payloadStorage := writeAt b.payloadStorage
            (queuePayloadSlot (b.queues p) (b.queues p).tail) (b.bytesOf msg) }.setQueue p
        { b.queues p with
          tail := ((b.queues p).tail + 1) % (b.queues p).cap
          count := (b.queues p).count + 1 }, none) := by
  have hempty : msg.len = 0 → b.bytesOf msg = [] := fun h0 =>
    List.eq_nil_of_length_eq_zero (hs.trans h0)
  rw [msgbusPost]
  refine (if_neg h).trans ((if_neg hbig).trans ((if_neg hfull).trans ?_))
  cases hp : msg.payload with
  | null =>
    have hbytes : b.bytesOf msg = [] := by
      rw [MsgBus.bytesOf, hp]
    rw [hbytes, writeAt_nil]
  | caller bytes | storage addr =>
    by_cases hpos : 0 < msg.len
    · simp only [hpos, if_true]
    · rw [hempty (Nat.eq_zero_of_not_pos hpos), writeAt_nil]
      simp only [hpos, if_false]

theorem value_post_invalid {bus : TetraBs.MsgBus (List Byte) κ} {p : MsgPriority}
    (msg : SapMsg (List Byte)) (h : Refused msg.dest msg.sap) :
    TetraBs.msgbusPost bus p msg = (bus, some .EINVAL) := if_pos h

theorem value_post_too_big {bus : TetraBs.MsgBus (List Byte) κ} {p : MsgPriority}
    (msg : SapMsg (List Byte)) (h : ¬ Refused msg.dest msg.sap)
    (hbig : (bus.queues p).maxPayload < msg.len) :
    TetraBs.msgbusPost bus p msg = (bus, some .E2BIG) := (if_neg h).trans (if_pos hbig)

theorem value_post_full {bus : TetraBs.MsgBus (List Byte) κ} {p : MsgPriority}
    (msg : SapMsg (List Byte)) (h : ¬ Refused msg.dest msg.sap)
    (hbig : ¬ (bus.queues p).maxPayload < msg.len)
    (hfull : ¬ (bus.queues p).ring.count < (bus.queues p).ring.cap) :
    TetraBs.msgbusPost bus p msg =
      (bus.setQueue p { bus.queues p with drops := (bus.queues p).drops + 1 }, some .ENOSPC) :=
  (if_neg h).trans ((if_neg hbig).trans (dif_neg hfull))

theorem value_post_stored {bus : TetraBs.MsgBus (List Byte) κ} {p : MsgPriority}
    (msg : SapMsg (List Byte)) (h : ¬ Refused msg.dest msg.sap)
    (hbig : ¬ (bus.queues p).maxPayload < msg.len)
    (hroom : (bus.queues p).ring.count < (bus.queues p).ring.cap) :
    TetraBs.msgbusPost bus p msg =
      (bus.setQueue p { bus.queues p with ring := (bus.queues p).ring.push msg hroom }, none) :=
  (if_neg h).trans ((if_neg hbig).trans (dif_pos hroom))

/-- A change of one bucket. -/
theorem Shows.setQueue {c m : Nat} {b' : MsgBus w κ} {bus : TetraBs.MsgBus (List Byte) κ}
    {p : MsgPriority} {q : MsgBusQueue w} {r : TetraBs.MsgBusQueue (List Byte)}
    (hregs : b'.regs = bus.regs) (hentries : 3 * c ≤ b'.entryStorage.length)
    (hpayloads : 3 * c * m ≤ b'.payloadStorage.length)
    (hq : ShowsQueue c m p b'.entryStorage b'.payloadStorage q r)
    (hother : ∀ p', p' ≠ p →
      ShowsQueue c m p' b'.entryStorage b'.payloadStorage (b'.queues p') (bus.queues p')) :
    Shows c m (b'.setQueue p q) (bus.setQueue p r) := by
  refine ⟨hregs, hentries, hpayloads, fun p' => ?_⟩
  by_cases hp : p' = p
  · subst hp
    simpa [MsgBus.setQueue, TetraBs.MsgBus.setQueue] using hq
  · simpa [MsgBus.setQueue, TetraBs.MsgBus.setQueue, hp] using hother p' hp

/-- A post of the storage bus does what the post of the by-value bus does. -/
theorem post_refines {c m : Nat} {b : MsgBus w κ} {bus : TetraBs.MsgBus (List Byte) κ}
    (h : Shows c m b bus) (p : MsgPriority) {msg : MsgRef} (hs : b.Sound msg) :
    Shows c m (msgbusPost b p msg).1 (TetraBs.msgbusPost bus p (b.valueOf msg)).1 ∧
      (msgbusPost b p msg).2 = (TetraBs.msgbusPost bus p (b.valueOf msg)).2 := by
  have hq := h.queue p
  by_cases hvalid : Refused msg.dest msg.sap
  · rw [post_invalid hvalid, value_post_invalid (b.valueOf msg) hvalid]
    exact ⟨h, rfl⟩
  by_cases hbig : m < msg.len
  · rw [post_too_big hvalid (by rw [hq.maxPayload_eq.1]; exact hbig),
      value_post_too_big (b.valueOf msg) hvalid (by rw [hq.maxPayload_eq.2]; exact hbig)]
    exact ⟨h, rfl⟩
  have hsmall : ¬ (b.queues p).maxPayload < msg.len := by rwa [hq.maxPayload_eq.1]
  have hsmall' : ¬ (bus.queues p).maxPayload < (b.valueOf msg).len := by
    rw [hq.maxPayload_eq.2]
    exact hbig
  by_cases hfull : (b.queues p).count = (b.queues p).cap
  · rw [post_full hvalid hsmall hfull,
      value_post_full (b.valueOf msg) hvalid hsmall' (hq.full_iff.1 hfull)]
    exact ⟨Shows.setQueue h.regs h.entries_len h.payloads_len hq.drop fun p' _ => h.queue p', rfl⟩
  · have hroom := not_not.1 (mt hq.full_iff.2 hfull)
    have hfit : msg.len ≤ m := Nat.le_of_not_lt hbig
    have hbound := Nat.le_trans (block_end (slotNo_lt p hq.tail_lt) hfit) h.payloads_len
    rw [post_stored hs hvalid hsmall hfull,
      value_post_stored (b.valueOf msg) hvalid hsmall' hroom, hq.entry_no, hq.slot_address]
    refine ⟨Shows.setQueue h.regs ?_ ?_ ?_ ?_, rfl⟩
    · rw [List.length_set]
      exact h.entries_len
    · rw [writeAt_length (by rw [show (b.bytesOf msg).length = msg.len from hs]; exact hbound)]
      exact h.payloads_len
    · exact hq.push h.entries_len h.payloads_len
        (e := ⟨msg.src, msg.dest, msg.sap, msg.len, true⟩) hs hfit hroom
    · intro p' hp
      exact (h.queue p').write_apart h.entries_len h.payloads_len hq.tail_lt hp
        (e := ⟨msg.src, msg.dest, msg.sap, msg.len, true⟩) hs hfit

/-- Freeing the oldest message of a bucket. -/
theorem advance_refines {c m : Nat} {b : MsgBus w κ} {bus : TetraBs.MsgBus (List Byte) κ}
    (h : Shows c m b bus) {p : MsgPriority} (hpos : 0 < (bus.queues p).ring.count) :
    Shows c m (msgbusAdvance b p) (TetraBs.msgbusAdvance bus p) := by
  have hq := h.queue p
  rw [TetraBs.msgbusAdvance, dif_pos hpos, msgbusAdvance, hq.entry_no]
  refine Shows.setQueue h.regs ?_ h.payloads_len (hq.pop h.entries_len hpos) ?_
  · rw [List.length_set]
    exact h.entries_len
  · intro p' hp
    exact (h.queue p').free_apart h.entries_len hq.head_lt hp _

/-- A fresh bus shows the empty by-value bus. -/
theorem init_shows {cfg : MsgBusCfg} {b : MsgBus w κ} (h : msgbusInit w κ cfg = .ok b) :
    ∃ hcap : 0 < cfg.queueCapPerPrio, Shows cfg.queueCapPerPrio cfg.maxPayloadBytes b
      (TetraBs.msgbusInit (List Byte) κ cfg.queueCapPerPrio cfg.maxPayloadBytes hcap) := by
  simp only [msgbusInit] at h
  split_ifs at h with hzero hsmall
  cases h
  obtain ⟨hcap, -⟩ := not_or.1 hzero
  obtain ⟨hentries, hpayloads⟩ := not_or.1 hsmall
  replace hentries := Nat.le_of_not_lt hentries
  replace hpayloads := Nat.le_of_not_lt hpayloads
  have hpos : 0 < cfg.queueCapPerPrio := Nat.pos_of_ne_zero hcap
  have hentry : ∀ (p : MsgPriority) {k : Nat}, k < cfg.queueCapPerPrio →
      (writeAt cfg.entryStorage 0 (List.replicate (cfg.queueCapPerPrio * 3) zeroEntry)).getD
        (prioIndex p * cfg.queueCapPerPrio + k) zeroEntry = zeroEntry := by
    intro p k hk
    have hlt : prioIndex p * cfg.queueCapPerPrio + k < cfg.queueCapPerPrio * 3 := by
      have hno := slotNo_lt p hk
      rw [slotNo] at hno
      omega
    rw [writeAt, List.take_zero, List.nil_append, List.getD_eq_getElem?_getD,
      List.getElem?_append_left (by rw [List.length_replicate]; exact hlt),
      List.getElem?_replicate, if_pos hlt]
    rfl
  refine ⟨hpos, rfl, ?_, ?_, fun p => ?_⟩
  · rw [writeAt_length (by rw [List.length_replicate, Nat.zero_add]; exact hentries),
      Nat.mul_comm]
    exact hentries
  · rw [writeAt_length (by rw [List.length_replicate, Nat.zero_add]; exact hpayloads),
      Nat.mul_comm 3]
    exact hpayloads
  · refine ⟨rfl, rfl, ⟨rfl, rfl⟩, ⟨rfl, rfl⟩, rfl, rfl, rfl, rfl, fun {k} hk => ?_,
      fun {k} hk => ?_⟩
    · rw [entryAt, hentry p hk]
      exact Nat.zero_le _
    · rw [slotAt, entryAt, hentry p hk, List.getD_eq_getElem?_getD]
      simp only [TetraBs.msgbusInit, Ring.empty, List.getElem?_replicate, hk, if_true]
      rfl

theorem register_shows {c m : Nat} {b b' : MsgBus w κ} {bus : TetraBs.MsgBus (List Byte) κ}
    (h : Shows c m b bus) {dest sap : SapId} {cb : κ}
    (hreg : msgbusRegister b dest sap cb = .ok b') :
    ∃ bus', TetraBs.msgbusRegister bus dest sap cb = .ok bus' ∧ Shows c m b' bus' := by
  rw [msgbusRegister] at hreg
  split_ifs at hreg with hvalid hcap
  cases hreg
  have hcap' : ¬ msgbusRegCap ≤ bus.regs.length := by
    rw [← h.regs]
    exact hcap
  rw [TetraBs.msgbusRegister, if_neg hvalid, dif_neg hcap']
  refine ⟨_, rfl, congrArg (· ++ _) h.regs, h.entries_len, h.payloads_len, h.queue⟩

end TetraBs.BusStorage
