import TetraBs.Core.BitBuffer
import TetraBs.Lib.Ring

/-! The message bus of `sw/core/src/msgbus.c`: three ring-buffered priority buckets and a
list of callbacks keyed by (dest, sap). `π` is what a payload decodes to, `κ` names the
callbacks; the state a callback works on is a `BusHost`. -/
namespace TetraBs

inductive SapId where
  | none | tpSap | tmvSap | tmaSap | tmdSap | tleSap | tlmbSap | tlmcSap | tnmmSap
deriving DecidableEq, Repr

inductive MsgPriority where
  | high | normal | low
deriving DecidableEq, Repr

def sapIdIsValid (id : SapId) : Bool := id != .none

def sapPrioDefault : SapId → MsgPriority
  | .tmaSap | .tlmbSap => .high
  | .tnmmSap => .low
  | _ => .normal

/-- `len` is the payload size in bytes. -/
structure SapMsg (π : Type*) where
  src : SapId
  dest : SapId
  sap : SapId
  len : Nat
  payload : π
deriving DecidableEq, Repr

structure MsgBusReg (κ : Type*) where
  dest : SapId
  sap : SapId
  cb : κ
deriving DecidableEq, Repr

structure MsgBusQueue (π : Type*) where
  ring : Ring (SapMsg π)
  maxPayload : Nat
  drops : Nat

def msgbusRegCap : Nat := 32

structure MsgBus (π κ : Type*) where
  queues : MsgPriority → MsgBusQueue π
  regs : List (MsgBusReg κ)
  regs_le : regs.length ≤ msgbusRegCap

instance : Inhabited SapId := ⟨.none⟩

variable {σ π κ : Type*}

instance [Inhabited π] : Inhabited (SapMsg π) := ⟨⟨.none, .none, .none, 0, default⟩⟩

def msgbusInit (π κ : Type*) [Inhabited π] (cap maxPayload : Nat) (h : 0 < cap) : MsgBus π κ where
  queues := fun _ => ⟨Ring.empty cap h, maxPayload, 0⟩
  regs := []
  regs_le := Nat.zero_le _

def msgbusRegister (bus : MsgBus π κ) (dest sap : SapId) (cb : κ) : Except Errno (MsgBus π κ) :=
  if sapIdIsValid dest = false ∨ sapIdIsValid sap = false then .error .EINVAL
  else if h : msgbusRegCap ≤ bus.regs.length then .error .ENOSPC
  else .ok { bus with regs := bus.regs ++ [⟨dest, sap, cb⟩],
                      regs_le := by rw [List.length_append]; exact Nat.lt_of_not_le h }

def MsgBus.setQueue (bus : MsgBus π κ) (p : MsgPriority) (q : MsgBusQueue π) : MsgBus π κ :=
  { bus with queues := fun p' => if p' = p then q else bus.queues p' }

/-- The second component is the errno returned, `none` on success. -/
def msgbusPost (bus : MsgBus π κ) (prio : MsgPriority) (msg : SapMsg π) :
    MsgBus π κ × Option Errno :=
  if sapIdIsValid msg.dest = false ∨ sapIdIsValid msg.sap = false then (bus, some .EINVAL)
  else if (bus.queues prio).maxPayload < msg.len then (bus, some .E2BIG)
  else if h : (bus.queues prio).ring.count < (bus.queues prio).ring.cap then
    (bus.setQueue prio { bus.queues prio with ring := (bus.queues prio).ring.push msg h }, none)
  else (bus.setQueue prio { bus.queues prio with drops := (bus.queues prio).drops + 1 },
    some .ENOSPC)

/-- The buckets are tried in the order High, Normal, Low. -/
def nextNonemptyQueue (bus : MsgBus π κ) : Option MsgPriority :=
  [MsgPriority.high, .normal, .low].find? fun p => 0 < (bus.queues p).ring.count

/-- Free the entry just dispatched. -/
def msgbusAdvance (bus : MsgBus π κ) (p : MsgPriority) : MsgBus π κ :=
  if h : 0 < (bus.queues p).ring.count then
    bus.setQueue p { bus.queues p with ring := (bus.queues p).ring.pop h }
  else bus

/-- A state that holds a bus and knows what each callback does to it. -/
class BusHost (σ : Type*) (π κ : outParam (Type*)) where
  bus : σ → MsgBus π κ
  setBus : σ → MsgBus π κ → σ
  call : κ → SapMsg π → σ → σ

/-- The callbacks registered for the key of `msg`, in registration order. -/
def matchingRegs (bus : MsgBus π κ) (msg : SapMsg π) : List κ :=
  (bus.regs.filter fun r => r.dest == msg.dest && r.sap == msg.sap).map MsgBusReg.cb

/-- Returns 1 if a message was dispatched, 0 if all buckets are empty. The entry is freed
only after the callbacks ran. -/
def msgbusDispatchOne [Inhabited π] [BusHost σ π κ] (s : σ) : σ × Nat :=
  match nextNonemptyQueue (BusHost.bus s) with
  | none => (s, 0)
  | some p =>
    let msg := ((BusHost.bus s).queues p).ring.peek
    let s' := (matchingRegs (BusHost.bus s) msg).foldl (fun s cb => BusHost.call cb msg s) s
    (BusHost.setBus s' (msgbusAdvance (BusHost.bus s') p), 1)

/-! What the bus holds. -/

theorem msgbusRegister_ok {bus bus' : MsgBus π κ} {dest sap : SapId} {cb : κ}
    (h : msgbusRegister bus dest sap cb = .ok bus') :
    bus'.regs = bus.regs ++ [⟨dest, sap, cb⟩] ∧ bus'.queues = bus.queues := by
  unfold msgbusRegister at h
  split at h
  · cases h
  · split at h
    · cases h
    · cases h
      exact ⟨rfl, rfl⟩

@[simp] theorem regs_post (bus : MsgBus π κ) (p : MsgPriority) (msg : SapMsg π) :
    (msgbusPost bus p msg).1.regs = bus.regs := by
  rw [msgbusPost]
  split
  · rfl
  · split
    · rfl
    · split <;> rfl

/-- Posting keeps the size of every bucket. -/
theorem size_post (bus : MsgBus π κ) (p : MsgPriority) (msg : SapMsg π) (p' : MsgPriority) :
    ((msgbusPost bus p msg).1.queues p').ring.cap = (bus.queues p').ring.cap ∧
      ((msgbusPost bus p msg).1.queues p').maxPayload = (bus.queues p').maxPayload := by
  rw [msgbusPost]
  by_cases hp : p' = p
  · subst hp
    split
    · exact ⟨rfl, rfl⟩
    · split
      · exact ⟨rfl, rfl⟩
      · split <;> simp [MsgBus.setQueue, Ring.push]
  · split
    · exact ⟨rfl, rfl⟩
    · split
      · exact ⟨rfl, rfl⟩
      · split <;> simp [MsgBus.setQueue, hp]

@[simp] theorem regs_advance (bus : MsgBus π κ) (p : MsgPriority) :
    (msgbusAdvance bus p).regs = bus.regs := by
  rw [msgbusAdvance]
  split <;> rfl

variable [Inhabited π]

/-- The messages waiting in a bucket, oldest first. -/
def MsgBus.pending (bus : MsgBus π κ) (p : MsgPriority) : List (SapMsg π) :=
  (bus.queues p).ring.items

/-- The messages a bucket takes. -/
structure MsgBus.Accepts (bus : MsgBus π κ) (p : MsgPriority) (msg : SapMsg π) : Prop where
  dest_valid : msg.dest ≠ .none
  sap_valid : msg.sap ≠ .none
  len_le : msg.len ≤ (bus.queues p).maxPayload
  room : (bus.pending p).length < (bus.queues p).ring.cap

theorem MsgBus.pending_length (bus : MsgBus π κ) (p : MsgPriority) :
    (bus.pending p).length = (bus.queues p).ring.count := Ring.items_length _

theorem MsgBus.accepts_iff (bus : MsgBus π κ) (p : MsgPriority) (msg : SapMsg π) :
    bus.Accepts p msg ↔ (msg.dest ≠ .none ∧ msg.sap ≠ .none) ∧
      msg.len ≤ (bus.queues p).maxPayload ∧ (bus.queues p).ring.count < (bus.queues p).ring.cap := by
  rw [← bus.pending_length]
  exact ⟨fun h => ⟨⟨h.dest_valid, h.sap_valid⟩, h.len_le, h.room⟩,
    fun h => ⟨h.1.1, h.1.2, h.2.1, h.2.2⟩⟩

/-- An addressed message only needs room. -/
theorem MsgBus.accepts_addressed {bus : MsgBus π κ} {p : MsgPriority} {msg : SapMsg π}
    (hdest : msg.dest ≠ .none) (hsap : msg.sap ≠ .none) :
    bus.Accepts p msg ↔ msg.len ≤ (bus.queues p).maxPayload ∧
      (bus.pending p).length < (bus.queues p).ring.cap :=
  ⟨fun h => ⟨h.len_le, h.room⟩, fun h => ⟨hdest, hsap, h.1, h.2⟩⟩

instance (bus : MsgBus π κ) (p : MsgPriority) (msg : SapMsg π) :
    Decidable (bus.Accepts p msg) :=
  decidable_of_iff' _ (bus.accepts_iff p msg)

theorem pending_setQueue (bus : MsgBus π κ) (p p' : MsgPriority) (q : MsgBusQueue π) :
    (bus.setQueue p q).pending p' = if p' = p then q.ring.items else bus.pending p' := by
  unfold MsgBus.pending MsgBus.setQueue
  by_cases h : p' = p
  · simp [h]
  · simp [h]

theorem pending_register {bus bus' : MsgBus π κ} {dest sap : SapId} {cb : κ}
    (h : msgbusRegister bus dest sap cb = .ok bus') (p : MsgPriority) :
    bus'.pending p = bus.pending p := by
  rw [MsgBus.pending, (msgbusRegister_ok h).2]
  rfl

/-- A post either appends its message to the bucket, or fails and changes nothing that is
waiting. -/
theorem msgbusPost_cases (bus : MsgBus π κ) (p : MsgPriority) (msg : SapMsg π) :
    bus.Accepts p msg ∧ (msgbusPost bus p msg).2 = none ∧
        (∀ p', (msgbusPost bus p msg).1.pending p' =
          if p' = p then bus.pending p' ++ [msg] else bus.pending p') ∨
      ¬bus.Accepts p msg ∧ (msgbusPost bus p msg).2 ≠ none ∧
        ∀ p', (msgbusPost bus p msg).1.pending p' = bus.pending p' := by
  have hvalid : (sapIdIsValid msg.dest = false ∨ sapIdIsValid msg.sap = false) ↔
      ¬(msg.dest ≠ .none ∧ msg.sap ≠ .none) := by
    rw [not_and_or]
    simp [sapIdIsValid]
  rw [bus.accepts_iff]
  rw [msgbusPost]
  by_cases hbad : sapIdIsValid msg.dest = false ∨ sapIdIsValid msg.sap = false
  · rw [if_pos hbad]
    exact Or.inr ⟨fun h => hvalid.1 hbad h.1, by simp, fun _ => rfl⟩
  rw [if_neg hbad]
  by_cases hlen : (bus.queues p).maxPayload < msg.len
  · rw [if_pos hlen]
    exact Or.inr ⟨fun h => Nat.not_le.2 hlen h.2.1, by simp, fun _ => rfl⟩
  rw [if_neg hlen]
  by_cases hroom : (bus.queues p).ring.count < (bus.queues p).ring.cap
  · rw [dif_pos hroom]
    refine Or.inl ⟨⟨?_, Nat.le_of_not_lt hlen, hroom⟩, rfl, fun p' => ?_⟩
    · by_contra hn
      exact hbad (hvalid.2 hn)
    · rw [pending_setQueue]
      by_cases hp : p' = p
      · rw [if_pos hp, if_pos hp, hp]
        exact Ring.items_push _ _ _
      · rw [if_neg hp, if_neg hp]
  · rw [dif_neg hroom]
    refine Or.inr ⟨fun h => hroom h.2.2, by simp, fun p' => ?_⟩
    rw [pending_setQueue]
    by_cases hp : p' = p
    · rw [if_pos hp, hp]
      rfl
    · rw [if_neg hp]

theorem msgbusPost_ok {bus : MsgBus π κ} {p : MsgPriority} {msg : SapMsg π} :
    (msgbusPost bus p msg).2 = none ↔ bus.Accepts p msg := by
  obtain ⟨ha, hok, -⟩ | ⟨ha, hno, -⟩ := msgbusPost_cases bus p msg
  · exact ⟨fun _ => ha, fun _ => hok⟩
  · exact ⟨fun h => absurd h hno, fun h => absurd h ha⟩

theorem pending_post (bus : MsgBus π κ) (p : MsgPriority) (msg : SapMsg π) (p' : MsgPriority) :
    (msgbusPost bus p msg).1.pending p' =
      bus.pending p' ++ if p' = p ∧ bus.Accepts p msg then [msg] else [] := by
  obtain ⟨ha, -, hp⟩ | ⟨ha, -, hp⟩ := msgbusPost_cases bus p msg
  · rw [hp]
    by_cases h : p' = p <;> simp [h, ha]
  · rw [hp]
    simp [ha]

/-- `b'` is `b` after successful posts of `high` and `normal` to those buckets; failed posts
leave no trace here. -/
structure Posts (b b' : MsgBus π κ) (high normal : List (SapMsg π)) : Prop where
  high_eq : b'.pending .high = b.pending .high ++ high
  normal_eq : b'.pending .normal = b.pending .normal ++ normal
  low_eq : b'.pending .low = b.pending .low
  regs_eq : b'.regs = b.regs
  cap_eq : ∀ p, (b'.queues p).ring.cap = (b.queues p).ring.cap
  max_eq : ∀ p, (b'.queues p).maxPayload = (b.queues p).maxPayload

theorem Posts.refl (b : MsgBus π κ) : Posts b b [] [] :=
  ⟨(List.append_nil _).symm, (List.append_nil _).symm, rfl, rfl, fun _ => rfl, fun _ => rfl⟩

theorem Posts.trans {a b c : MsgBus π κ} {h n h' n' : List (SapMsg π)} (hab : Posts a b h n)
    (hbc : Posts b c h' n') : Posts a c (h ++ h') (n ++ n') := by
  refine ⟨?_, ?_, hbc.low_eq.trans hab.low_eq, hbc.regs_eq.trans hab.regs_eq,
    fun p => (hbc.cap_eq p).trans (hab.cap_eq p), fun p => (hbc.max_eq p).trans (hab.max_eq p)⟩
  · rw [hbc.high_eq, hab.high_eq, List.append_assoc]
  · rw [hbc.normal_eq, hab.normal_eq, List.append_assoc]

theorem posts_high (bus : MsgBus π κ) (msg : SapMsg π) :
    Posts bus (msgbusPost bus .high msg).1 (if bus.Accepts .high msg then [msg] else []) [] :=
  ⟨by simp [pending_post], by simp [pending_post], by simp [pending_post], regs_post _ _ _,
    fun p => (size_post bus .high msg p).1, fun p => (size_post bus .high msg p).2⟩

theorem posts_normal (bus : MsgBus π κ) (msg : SapMsg π) :
    Posts bus (msgbusPost bus .normal msg).1 [] (if bus.Accepts .normal msg then [msg] else []) :=
  ⟨by simp [pending_post], by simp [pending_post], by simp [pending_post], regs_post _ _ _,
    fun p => (size_post bus .normal msg p).1, fun p => (size_post bus .normal msg p).2⟩

theorem pending_advance (bus : MsgBus π κ) (p p' : MsgPriority) :
    (msgbusAdvance bus p).pending p' =
      if p' = p then (bus.pending p').tail else bus.pending p' := by
  rw [msgbusAdvance]
  by_cases h : 0 < (bus.queues p).ring.count
  · rw [dif_pos h, pending_setQueue]
    by_cases hp : p' = p
    · rw [if_pos hp, if_pos hp, hp, MsgBus.pending, Ring.items_pop _ h]
      rfl
    · rw [if_neg hp, if_neg hp]
  · rw [dif_neg h]
    by_cases hp : p' = p
    · have hnil : bus.pending p = [] := (Ring.items_eq_nil _).2 (Nat.eq_zero_of_not_pos h)
      rw [if_pos hp, hp, hnil]
      rfl
    · rw [if_neg hp]

/-- The message the next dispatch takes: the oldest of the first non-empty bucket. -/
def MsgBus.next (bus : MsgBus π κ) : Option (MsgPriority × SapMsg π) :=
  (nextNonemptyQueue bus).map fun p => (p, (bus.queues p).ring.peek)

theorem pending_eq_cons {bus : MsgBus π κ} {p : MsgPriority} {msg : SapMsg π}
    (h : bus.next = some (p, msg)) : bus.pending p = msg :: (bus.pending p).tail := by
  unfold MsgBus.next at h
  cases hq : nextNonemptyQueue bus with
  | none =>
    rw [hq] at h
    cases h
  | some p' =>
    rw [hq] at h
    cases h
    have hpos : 0 < (bus.queues p).ring.count := by
      simpa using List.find?_some hq
    rw [MsgBus.pending]
    rw [Ring.items_pop _ hpos]
    rfl

/-- The bucket order: a message is taken from a bucket only if the ones before are empty. -/
theorem next_eq_some {bus : MsgBus π κ} {p : MsgPriority} {msg : SapMsg π}
    (h : bus.next = some (p, msg)) :
    ∃ rest, bus.pending p = msg :: rest ∧ (p ≠ .high → bus.pending .high = []) ∧
      (p = .low → bus.pending .normal = []) := by
  refine ⟨_, pending_eq_cons h, ?_, ?_⟩
  all_goals
    unfold MsgBus.next nextNonemptyQueue at h
    intro hp
    rw [MsgBus.pending, Ring.items_eq_nil]
    by_contra hne
    have hpos := Nat.pos_of_ne_zero hne
  · simp [List.find?, hpos] at h
    exact hp h.1.symm
  · subst hp
    cases hhigh : decide (0 < (bus.queues .high).ring.count) <;>
      simp [List.find?, hpos, hhigh] at h

/-- Nothing is taken from the other buckets while Normal is the first with a message. -/
theorem next_eq_normal {bus : MsgBus π κ} {msg : SapMsg π} {rest : List (SapMsg π)}
    (hhigh : bus.pending .high = []) (h : bus.pending .normal = msg :: rest) :
    bus.next = some (.normal, msg) := by
  have hcount : ∀ p, bus.pending p ≠ [] → 0 < (bus.queues p).ring.count := by
    intro p hp
    apply Nat.pos_of_ne_zero
    intro h0
    exact hp ((Ring.items_eq_nil _).2 h0)
  have hnext : nextNonemptyQueue bus = some .normal := by
    have hno : ¬0 < (bus.queues .high).ring.count := by
      rw [(Ring.items_eq_nil _).1 hhigh]
      decide
    have hyes := hcount .normal (by rw [h]; exact List.cons_ne_nil _ _)
    simp [nextNonemptyQueue, List.find?, hno, hyes]
  have hsome : bus.next = some (.normal, (bus.queues .normal).ring.peek) := by
    rw [MsgBus.next, hnext]
    rfl
  have hcons := pending_eq_cons hsome
  rw [h] at hcons
  rw [hsome, (List.cons.inj hcons).1]

theorem next_eq_none {bus : MsgBus π κ} : bus.next = none ↔ ∀ p, bus.pending p = [] := by
  rw [MsgBus.next, nextNonemptyQueue]
  rw [Option.map_eq_none_iff, List.find?_eq_none]
  constructor
  · intro h p
    rw [MsgBus.pending, Ring.items_eq_nil]
    have := h p (by cases p <;> simp)
    simpa using this
  · intro h p _
    have := (Ring.items_eq_nil _).1 (h p)
    simp [this]

/-- One dispatch: the callbacks of the next message run in registration order, then its
entry is freed. -/
theorem msgbusDispatchOne_eq [BusHost σ π κ] (s : σ) :
    msgbusDispatchOne s = match (BusHost.bus s).next with
      | none => (s, 0)
      | some (p, msg) =>
        let s' := (matchingRegs (BusHost.bus s) msg).foldl (fun s cb => BusHost.call cb msg s) s
        (BusHost.setBus s' (msgbusAdvance (BusHost.bus s') p), 1) := by
  rw [msgbusDispatchOne, MsgBus.next]
  cases nextNonemptyQueue (BusHost.bus s) <;> rfl

end TetraBs
