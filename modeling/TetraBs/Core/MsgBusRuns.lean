import TetraBs.Core.MsgBusStorage
import TetraBs.Lib.Run

/-! Runs of posts and dispatches over the storage bus. A handler may post while its message is
being delivered, also from the slot of that message; what it posts is part of the run. -/
namespace TetraBs.BusStorage
open TetraBs.Bits TetraBs.Memory TetraBs.Run
variable {w : Nat} {κ : Type*}

abbrev Value := SapMsg (List Byte)

/-- What happens on the bus; a handler sees its message when it is called and until it returns. -/
inductive Event (κ : Type*) where
  | posted (prio : MsgPriority) (msg : Value)
  | refused (prio : MsgPriority)
  | taken (prio : MsgPriority) (msg : Value)
  | called (cb : κ) (msg : Value)
  | returned (cb : κ) (msg : Value)

structure Hosted (w : Nat) (κ : Type*) where
  bus : MsgBus w κ
  trace : List (Event κ)

/-- A full bucket is the only refusal that is counted. -/
def postEvents (p : MsgPriority) (msg : Value) : Option Errno → List (Event κ)
  | none => [.posted p msg]
  | some .ENOSPC => [.refused p]
  | some _ => []

def Hosted.post (h : Hosted w κ) (p : MsgPriority) (msg : MsgRef) : Hosted w κ :=
  ⟨(msgbusPost h.bus p msg).1,
    h.trace ++ postEvents p (h.bus.valueOf msg) (msgbusPost h.bus p msg).2⟩

/-- A post of a handler: a message of its own, or the payload it was just given. -/
inductive HandlerPost where
  | fresh (prio : MsgPriority) (msg : MsgRef)
  | forward (prio : MsgPriority) (src dest sap : SapId)

def Hosted.handlerPost (m : MsgRef) (h : Hosted w κ) : HandlerPost → Hosted w κ
  | .fresh p msg => h.post p msg
  | .forward p src dest sap => h.post p ⟨src, dest, sap, m.len, m.payload⟩

def Hosted.note (h : Hosted w κ) (e : Event κ) : Hosted w κ := { h with trace := h.trace ++ [e] }

def Hosted.call (h : Hosted w κ) (m : MsgRef) (cb : κ) (script : List HandlerPost) : Hosted w κ :=
  let after := script.foldl (Hosted.handlerPost m) (h.note (.called cb (h.bus.valueOf m)))
  after.note (.returned cb (after.bus.valueOf m))

/-- The handlers in turn, each with the posts it makes. -/
def Hosted.calls (h : Hosted w κ) (m : MsgRef) : List κ → List (List HandlerPost) → Hosted w κ
  | [], _ => h
  | cb :: cbs, scripts => (h.call m cb (scripts.headD [])).calls m cbs scripts.tail

def Hosted.dispatchOne (h : Hosted w κ) (scripts : List (List HandlerPost)) : Hosted w κ :=
  match nextNonemptyQueue h.bus with
  | none => h
  | some p =>
    let m := headMsg h.bus p
    let after := (h.note (.taken p (h.bus.valueOf m))).calls m (matchingRegs h.bus m) scripts
    { after with bus := msgbusAdvance after.bus p }

inductive Op where
  | post (prio : MsgPriority) (msg : MsgRef)
  | dispatchOne (scripts : List (List HandlerPost))

def Hosted.step (h : Hosted w κ) : Op → Hosted w κ
  | .post p msg => h.post p msg
  | .dispatchOne scripts => h.dispatchOne scripts

/-- The caller's payload is there if its length is not zero. -/
def MsgRef.FromCaller (msg : MsgRef) : Prop :=
  match msg.payload with
  | .null => msg.len = 0
  | .caller bytes => msg.len ≤ bytes.length
  | .storage _ => False

instance MsgRef.FromCaller.decidable : (msg : MsgRef) → Decidable msg.FromCaller
  | ⟨_, _, _, len, .null⟩ => inferInstanceAs (Decidable (len = 0))
  | ⟨_, _, _, len, .caller bytes⟩ => inferInstanceAs (Decidable (len ≤ bytes.length))
  | ⟨_, _, _, _, .storage _⟩ => isFalse id

def HandlerPost.FromCaller : HandlerPost → Prop
  | .fresh _ msg => msg.FromCaller
  | .forward _ _ _ _ => True

instance HandlerPost.FromCaller.decidable : (p : HandlerPost) → Decidable p.FromCaller
  | .fresh _ msg => inferInstanceAs (Decidable msg.FromCaller)
  | .forward _ _ _ _ => isTrue trivial

def Op.FromCaller : Op → Prop
  | .post _ msg => msg.FromCaller
  | .dispatchOne scripts => ∀ script ∈ scripts, ∀ p ∈ script, p.FromCaller

instance Op.FromCaller.decidable : (op : Op) → Decidable op.FromCaller
  | .post _ msg => inferInstanceAs (Decidable msg.FromCaller)
  | .dispatchOne scripts =>
    inferInstanceAs (Decidable (∀ script ∈ scripts, ∀ p ∈ script, HandlerPost.FromCaller p))

/-- A bus that was initialised and had its handlers registered. -/
inductive Initialised : MsgBus w κ → Prop where
  | init {cfg : MsgBusCfg} {b : MsgBus w κ} : msgbusInit w κ cfg = .ok b → Initialised b
  | register {b b' : MsgBus w κ} {dest sap : SapId} {cb : κ} : Initialised b →
    msgbusRegister b dest sap cb = .ok b' → Initialised b'

/-! What a trace says. -/

def postedIn (p : MsgPriority) : Event κ → Option Value
  | .posted p' m => if p' = p then some m else none
  | _ => none

def takenFrom (p : MsgPriority) : Event κ → Option Value
  | .taken p' m => if p' = p then some m else none
  | _ => none

def takenMsg : Event κ → Option Value
  | .taken _ m => some m
  | _ => none

def callOf : Event κ → Option (κ × Value)
  | .called cb m => some (cb, m)
  | _ => none

def returnOf : Event κ → Option (κ × Value)
  | .returned cb m => some (cb, m)
  | _ => none

def isRefusal (p : MsgPriority) : Event κ → Bool
  | .refused p' => p' = p
  | _ => false

def posted (p : MsgPriority) (tr : List (Event κ)) : List Value := tr.filterMap (postedIn p)

def taken (p : MsgPriority) (tr : List (Event κ)) : List Value := tr.filterMap (takenFrom p)

def refusals (p : MsgPriority) (tr : List (Event κ)) : Nat := tr.countP (isRefusal p)

/-- The messages waiting in a bucket, oldest first. -/
def MsgBus.pending (b : MsgBus w κ) (p : MsgPriority) : List Value :=
  (List.range (b.queues p).count).map fun k =>
    slotAt b.entryStorage b.payloadStorage (b.queues p)
      (((b.queues p).head + k) % (b.queues p).cap)

/-- The handlers for a message, in registration order. -/
def handlersOf (regs : List (MsgBusReg κ)) (msg : Value) : List κ :=
  (regs.filter fun r => r.dest == msg.dest && r.sap == msg.sap).map MsgBusReg.cb

/-- The message is the oldest one waiting, and nothing waits in a bucket before. -/
def Next (before : List (Event κ)) (p : MsgPriority) (msg : Value) : Prop :=
  (∃ rest, posted p before = taken p before ++ msg :: rest) ∧
    ∀ p', prioIndex p' < prioIndex p → posted p' before = taken p' before

/-- What a bus owes its users: messages leave a bucket in the order in which they were accepted,
and those that have not left are waiting; each that left was handed exactly once to each of its
handlers, and stayed what it was until the handler returned; each dispatch took the next message,
and the following one takes a message if any is waiting; and the drops were counted. -/
structure Contract (h : Hosted w κ) : Prop where
  fifo (p : MsgPriority) : posted p h.trace = taken p h.trace ++ h.bus.pending p
  called : h.trace.filterMap callOf =
    (h.trace.filterMap takenMsg).flatMap fun m => (handlersOf h.bus.regs m).map fun cb => (cb, m)
  returned : h.trace.filterMap returnOf = h.trace.filterMap callOf
  next {pre post : List (Event κ)} {p : MsgPriority} {msg : Value} :
    h.trace = pre ++ .taken p msg :: post → Next pre p msg
  takes {scripts : List (List HandlerPost)} {p : MsgPriority} :
    (Op.dispatchOne scripts).FromCaller → h.bus.pending p ≠ [] →
      ∃ p' msg, h.trace ++ [.taken p' msg] <+: (h.dispatchOne scripts).trace
  drops (p : MsgPriority) : msgbusDrops h.bus p = BitVec.ofNat w (refusals p h.trace)

/-! The by-value bus next to the run. -/

theorem pending_shown {c m : Nat} {b : MsgBus w κ} {bus : TetraBs.MsgBus (List Byte) κ}
    (h : Shows c m b bus) (p : MsgPriority) : b.pending p = bus.pending p := by
  have hq := h.queue p
  rw [MsgBus.pending, TetraBs.MsgBus.pending, Ring.items, hq.count_eq]
  apply List.map_congr_left
  intro k _
  have hlt : ((b.queues p).head + k) % (b.queues p).cap < c := by
    rw [hq.cap_eq.1]
    exact Nat.mod_lt _ (Nat.lt_of_le_of_lt (Nat.zero_le _) hq.head_lt)
  rw [hq.slots hlt, Ring.index, hq.head_eq, hq.cap_eq.1, hq.cap_eq.2]

theorem peek_of_pending {bus : TetraBs.MsgBus (List Byte) κ} {p : MsgPriority} {v : Value}
    {rest : List Value} (h : bus.pending p = v :: rest) :
    0 < (bus.queues p).ring.count ∧ (bus.queues p).ring.peek = v := by
  have hpos : 0 < (bus.queues p).ring.count := by
    rw [← bus.pending_length, h]
    exact Nat.succ_pos _
  have hitems := Ring.items_pop (bus.queues p).ring hpos
  have hpend : (bus.queues p).ring.items = v :: rest := h
  rw [hpend] at hitems
  exact ⟨hpos, (List.cons.inj hitems).1.symm⟩

/-- What a handler gets depends on the oldest message and on where it lies. -/
theorem headMsg_shown {c m : Nat} {b : MsgBus w κ} {bus : TetraBs.MsgBus (List Byte) κ}
    (h : Shows c m b bus) (p : MsgPriority) :
    headMsg b p =
      ⟨(bus.queues p).ring.peek.src, (bus.queues p).ring.peek.dest,
        (bus.queues p).ring.peek.sap, (bus.queues p).ring.peek.len,
        if 0 < (bus.queues p).ring.peek.len then
          .storage (slotNo c p (bus.queues p).ring.head * m) else .null⟩ := by
  have hvalue := h.headMsg_value p
  rw [← hvalue, ← (h.queue p).head_eq, ← (h.queue p).slot_address]
  rfl

theorem head_post (bus : TetraBs.MsgBus (List Byte) κ) (p p' : MsgPriority) (v : Value) :
    ((TetraBs.msgbusPost bus p v).1.queues p').ring.head = (bus.queues p').ring.head := by
  rw [TetraBs.msgbusPost]
  split_ifs
  · rfl
  · rfl
  · by_cases hp : p' = p <;> simp [TetraBs.MsgBus.setQueue, Ring.push, hp]
  · by_cases hp : p' = p <;> simp [TetraBs.MsgBus.setQueue, hp]

theorem drops_post (bus : TetraBs.MsgBus (List Byte) κ) (p p' : MsgPriority) (v : Value) :
    ((TetraBs.msgbusPost bus p v).1.queues p').drops =
      (bus.queues p').drops +
        refusals p' (postEvents p v (TetraBs.msgbusPost bus p v).2 : List (Event κ)) := by
  rw [TetraBs.msgbusPost]
  split_ifs
  · rfl
  · rfl
  · by_cases hp : p' = p <;>
      simp [TetraBs.MsgBus.setQueue, hp, postEvents, refusals, isRefusal]
  · by_cases hp : p' = p
    · simp [TetraBs.MsgBus.setQueue, hp, postEvents, refusals, isRefusal]
    · have hp' : ¬ p = p' := fun heq => hp heq.symm
      simp [TetraBs.MsgBus.setQueue, hp, hp', postEvents, refusals, isRefusal]

theorem drops_advance (bus : TetraBs.MsgBus (List Byte) κ) (p p' : MsgPriority) :
    ((TetraBs.msgbusAdvance bus p).queues p').drops = (bus.queues p').drops := by
  rw [TetraBs.msgbusAdvance]
  split_ifs
  · by_cases hp : p' = p <;> simp [TetraBs.MsgBus.setQueue, hp]
  · rfl

/-! The events of a post. -/

theorem postEvents_quiet (p : MsgPriority) (v : Value) (e : Option Errno) :
    (postEvents p v e : List (Event κ)).filterMap takenMsg = [] ∧
      (postEvents p v e : List (Event κ)).filterMap callOf = [] ∧
      (postEvents p v e : List (Event κ)).filterMap returnOf = [] := by
  cases e with
  | none => exact ⟨rfl, rfl, rfl⟩
  | some errno => cases errno <;> exact ⟨rfl, rfl, rfl⟩

theorem taken_postEvents (p p' : MsgPriority) (v : Value) (e : Option Errno) :
    taken p' (postEvents p v e : List (Event κ)) = [] := by
  cases e with
  | none => rfl
  | some errno => cases errno <;> rfl

theorem posted_postEvents {bus : TetraBs.MsgBus (List Byte) κ} (p p' : MsgPriority) (v : Value) :
    posted p' (postEvents p v (TetraBs.msgbusPost bus p v).2 : List (Event κ)) =
      if p' = p ∧ bus.Accepts p v then [v] else [] := by
  have hok : (TetraBs.msgbusPost bus p v).2 = none ↔ bus.Accepts p v := msgbusPost_ok
  cases he : (TetraBs.msgbusPost bus p v).2 with
  | none =>
    have hacc := hok.1 he
    by_cases hp : p' = p
    · simp [posted, postEvents, postedIn, hp, hacc]
    · have hp' : ¬ p = p' := fun heq => hp heq.symm
      simp [posted, postEvents, postedIn, hp, hp']
  | some errno =>
    have hno : ¬ bus.Accepts p v := fun hacc => by
      rw [hok.2 hacc] at he
      cases he
    rw [if_neg fun h => hno h.2]
    cases errno <;> rfl

/-- The trace and the by-value bus agree: what has left a bucket, `front` being the part of it that
still lies in its slot, and what was refused. -/
structure Tracks (c m : Nat) (front : MsgPriority → List Value) (h : Hosted w κ)
    (bus : TetraBs.MsgBus (List Byte) κ) : Prop where
  shows : Shows c m h.bus bus
  queued (p : MsgPriority) : ∃ gone, taken p h.trace = gone ++ front p ∧
    posted p h.trace = gone ++ bus.pending p
  refused (p : MsgPriority) : (bus.queues p).drops = refusals p h.trace
  next {pre post : List (Event κ)} {p : MsgPriority} {msg : Value} :
    h.trace = pre ++ .taken p msg :: post → Next pre p msg

/-- Events behind the last dispatch do not change what the dispatches took. -/
theorem next_append {tr ext : List (Event κ)} (hext : ext.filterMap takenMsg = [])
    (h : ∀ pre post p msg, tr = pre ++ .taken p msg :: post → Next pre p msg)
    {pre post : List (Event κ)} {p : MsgPriority} {msg : Value}
    (heq : tr ++ ext = pre ++ .taken p msg :: post) : Next pre p msg := by
  rcases List.append_eq_append_iff.1 heq with ⟨mid, hpre, hmid⟩ | ⟨mid, htr, hmid⟩
  · have hmem : Event.taken p msg ∈ ext := by
      rw [hmid]
      exact List.mem_append_right _ List.mem_cons_self
    have hin : msg ∈ ext.filterMap takenMsg := List.mem_filterMap.2 ⟨_, hmem, rfl⟩
    rw [hext] at hin
    exact absurd hin List.not_mem_nil
  · cases mid with
    | nil =>
      have hmem : Event.taken p msg ∈ ext := by
        rw [← List.nil_append ext, ← hmid]
        exact List.mem_cons_self
      have hin : msg ∈ ext.filterMap takenMsg := List.mem_filterMap.2 ⟨_, hmem, rfl⟩
      rw [hext] at hin
      exact absurd hin List.not_mem_nil
    | cons e mid =>
      rw [List.cons_append] at hmid
      obtain ⟨rfl, rfl⟩ := List.cons.inj hmid
      exact h pre mid p msg htr

theorem FromCaller.sound {msg : MsgRef} (h : msg.FromCaller) (b : MsgBus w κ) : b.Sound msg := by
  rw [MsgBus.Sound, MsgBus.bytesOf]
  rw [MsgRef.FromCaller] at h
  cases hp : msg.payload with
  | null =>
    rw [hp] at h
    exact h.symm
  | caller bytes =>
    rw [hp] at h
    rw [List.length_take]
    exact Nat.min_eq_left h
  | storage addr =>
    rw [hp] at h
    exact absurd h id

theorem post_tracks {c m : Nat} {front : MsgPriority → List Value} {h : Hosted w κ}
    {bus : TetraBs.MsgBus (List Byte) κ} (ht : Tracks c m front h bus) (p : MsgPriority)
    {msg : MsgRef} (hs : h.bus.Sound msg) :
    Tracks c m front (h.post p msg) (TetraBs.msgbusPost bus p (h.bus.valueOf msg)).1 := by
  obtain ⟨hshows, herrno⟩ := post_refines ht.shows p hs
  have htrace : (h.post p msg).trace = h.trace ++
      postEvents p (h.bus.valueOf msg) (TetraBs.msgbusPost bus p (h.bus.valueOf msg)).2 := by
    rw [← herrno]
    rfl
  refine ⟨hshows, fun p' => ?_, fun p' => ?_, fun heq => ?_⟩
  · obtain ⟨gone, htaken, hposted⟩ := ht.queued p'
    refine ⟨gone, ?_, ?_⟩
    · rw [htrace, taken, List.filterMap_append]
      change taken p' h.trace ++ taken p' _ = _
      rw [taken_postEvents, htaken, List.append_nil]
    · rw [htrace, posted, List.filterMap_append]
      change posted p' h.trace ++ posted p' _ = _
      rw [posted_postEvents, hposted, pending_post, List.append_assoc]
  · rw [drops_post, ht.refused, htrace, refusals, refusals, refusals, List.countP_append]
  · rw [htrace] at heq
    exact next_append (postEvents_quiet _ _ _).1 (fun _ _ _ _ h => ht.next h) heq

theorem note_tracks {c m : Nat} {front : MsgPriority → List Value} {h : Hosted w κ}
    {bus : TetraBs.MsgBus (List Byte) κ} (ht : Tracks c m front h bus) {e : Event κ}
    (hposted : ∀ p, postedIn p e = none) (htaken : ∀ p, takenFrom p e = none)
    (hrefused : ∀ p, isRefusal p e = false) (hmsg : takenMsg e = none) :
    Tracks c m front (h.note e) bus := by
  refine ⟨ht.shows, fun p => ?_, fun p => ?_, fun heq => ?_⟩
  · obtain ⟨gone, hgone, hall⟩ := ht.queued p
    refine ⟨gone, ?_, ?_⟩
    · rw [← hgone]
      simp [Hosted.note, taken, htaken p]
    · rw [← hall]
      simp [Hosted.note, posted, hposted p]
  · rw [ht.refused]
    simp [Hosted.note, refusals, hrefused p]
  · exact next_append (by simp [hmsg]) (fun _ _ _ _ h => ht.next h) heq

/-- A message in delivery: it is the oldest of its bucket and lies in its slot. -/
structure InHand (c m : Nat) (p : MsgPriority) (v : Value) (ref : MsgRef) (h : Hosted w κ)
    (bus : TetraBs.MsgBus (List Byte) κ) : Prop where
  tracks : Tracks c m (fun p' => if p' = p then [v] else []) h bus
  waiting : ∃ rest, bus.pending p = v :: rest
  ref_eq : headMsg h.bus p = ref

theorem InHand.value {c m : Nat} {p : MsgPriority} {v : Value} {ref : MsgRef} {h : Hosted w κ}
    {bus : TetraBs.MsgBus (List Byte) κ} (hi : InHand c m p v ref h bus) :
    h.bus.valueOf ref = v := by
  obtain ⟨rest, hrest⟩ := hi.waiting
  rw [← hi.ref_eq, hi.tracks.shows.headMsg_value, (peek_of_pending hrest).2]

/-- Posting does not touch the message in delivery. -/
theorem post_inHand {c m : Nat} {p : MsgPriority} {v : Value} {ref : MsgRef} {h : Hosted w κ}
    {bus : TetraBs.MsgBus (List Byte) κ} (hi : InHand c m p v ref h bus) (p' : MsgPriority)
    {msg : MsgRef} (hs : h.bus.Sound msg) :
    InHand c m p v ref (h.post p' msg) (TetraBs.msgbusPost bus p' (h.bus.valueOf msg)).1 := by
  have ht := post_tracks hi.tracks p' hs
  obtain ⟨rest, hrest⟩ := hi.waiting
  have hrest' : (TetraBs.msgbusPost bus p' (h.bus.valueOf msg)).1.pending p =
      v :: (rest ++ if p = p' ∧ bus.Accepts p' (h.bus.valueOf msg) then
        [h.bus.valueOf msg] else []) := by
    rw [pending_post, hrest, List.cons_append]
  refine ⟨ht, ⟨_, hrest'⟩, ?_⟩
  rw [← hi.ref_eq, headMsg_shown ht.shows, headMsg_shown hi.tracks.shows,
    (peek_of_pending hrest').2, (peek_of_pending hrest).2, head_post]

/-- What a part of a dispatch adds to the run. -/
structure Adds (h h' : Hosted w κ) (cs rs : List (κ × Value)) : Prop where
  grows : h.trace <+: h'.trace
  regs : h'.bus.regs = h.bus.regs
  taken : h'.trace.filterMap takenMsg = h.trace.filterMap takenMsg
  called : h'.trace.filterMap callOf = h.trace.filterMap callOf ++ cs
  returned : h'.trace.filterMap returnOf = h.trace.filterMap returnOf ++ rs

theorem Adds.refl (h : Hosted w κ) : Adds h h [] [] :=
  ⟨List.prefix_refl _, rfl, rfl, (List.append_nil _).symm, (List.append_nil _).symm⟩

theorem Adds.trans {h h' h'' : Hosted w κ} {cs rs cs' rs' : List (κ × Value)}
    (hab : Adds h h' cs rs) (hbc : Adds h' h'' cs' rs') : Adds h h'' (cs ++ cs') (rs ++ rs') where
  grows := hab.grows.trans hbc.grows
  regs := hbc.regs.trans hab.regs
  taken := hbc.taken.trans hab.taken
  called := by rw [hbc.called, hab.called, List.append_assoc]
  returned := by rw [hbc.returned, hab.returned, List.append_assoc]

theorem regs_msgbusPost (b : MsgBus w κ) (p : MsgPriority) (msg : MsgRef) :
    (msgbusPost b p msg).1.regs = b.regs := by
  simp only [msgbusPost]
  split_ifs <;> rfl

theorem post_adds (h : Hosted w κ) (p : MsgPriority) (msg : MsgRef) :
    Adds h (h.post p msg) [] [] := by
  obtain ⟨htaken, hcalled, hreturned⟩ := postEvents_quiet (κ := κ) p (h.bus.valueOf msg)
    (msgbusPost h.bus p msg).2
  refine ⟨List.prefix_append _ _, regs_msgbusPost _ _ _, ?_, ?_, ?_⟩
  · rw [Hosted.post, List.filterMap_append, htaken, List.append_nil]
  · rw [Hosted.post, List.filterMap_append, hcalled]
  · rw [Hosted.post, List.filterMap_append, hreturned]

theorem handlerPost_inHand {c m : Nat} {p : MsgPriority} {v : Value} {ref : MsgRef}
    {h : Hosted w κ} {bus : TetraBs.MsgBus (List Byte) κ} (hi : InHand c m p v ref h bus)
    {hp : HandlerPost} (hf : hp.FromCaller) :
    ∃ bus', InHand c m p v ref (h.handlerPost ref hp) bus' ∧ Adds h (h.handlerPost ref hp) [] [] := by
  cases hp with
  | fresh p' msg => exact ⟨_, post_inHand hi p' (FromCaller.sound hf h.bus), post_adds h p' msg⟩
  | forward p' src dest sap =>
    have hsound : h.bus.Sound ⟨src, dest, sap, ref.len, ref.payload⟩ := by
      have hhead := hi.tracks.shows.headMsg_sound p
      rw [hi.ref_eq] at hhead
      exact hhead
    exact ⟨_, post_inHand hi p' hsound, post_adds h p' _⟩

theorem script_inHand {c m : Nat} {p : MsgPriority} {v : Value} {ref : MsgRef}
    {script : List HandlerPost} {h : Hosted w κ} {bus : TetraBs.MsgBus (List Byte) κ}
    (hi : InHand c m p v ref h bus) (hf : ∀ hp ∈ script, hp.FromCaller) :
    ∃ bus', InHand c m p v ref (script.foldl (Hosted.handlerPost ref) h) bus' ∧
      Adds h (script.foldl (Hosted.handlerPost ref) h) [] [] := by
  induction script generalizing h bus with
  | nil => exact ⟨bus, hi, Adds.refl h⟩
  | cons hp script ih =>
    obtain ⟨bus', hi', hadds⟩ := handlerPost_inHand hi (hf hp List.mem_cons_self)
    obtain ⟨bus'', hi'', hadds'⟩ := ih hi' fun hq hmem => hf hq (List.mem_cons_of_mem hp hmem)
    exact ⟨bus'', hi'', hadds.trans hadds'⟩

/-- One handler gets the message, whatever it posts. -/
theorem call_inHand {c m : Nat} {p : MsgPriority} {v : Value} {ref : MsgRef}
    {h : Hosted w κ} {bus : TetraBs.MsgBus (List Byte) κ} (hi : InHand c m p v ref h bus) (cb : κ)
    {script : List HandlerPost} (hf : ∀ hp ∈ script, hp.FromCaller) :
    ∃ bus', InHand c m p v ref (h.call ref cb script) bus' ∧
      Adds h (h.call ref cb script) [(cb, v)] [(cb, v)] := by
  have hcalled : InHand c m p v ref (h.note (.called cb (h.bus.valueOf ref))) bus :=
    ⟨note_tracks hi.tracks (fun _ => rfl) (fun _ => rfl) (fun _ => rfl) rfl, hi.waiting, hi.ref_eq⟩
  obtain ⟨bus', hi', hadds⟩ := script_inHand hcalled hf
  refine ⟨bus', ⟨note_tracks hi'.tracks (fun _ => rfl) (fun _ => rfl) (fun _ => rfl) rfl,
    hi'.waiting, hi'.ref_eq⟩, ?_⟩
  have hbefore : Adds h (h.note (.called cb (h.bus.valueOf ref))) [(cb, v)] [] := by
    rw [hi.value]
    refine ⟨List.prefix_append _ _, rfl, ?_, ?_, ?_⟩ <;> simp [Hosted.note, takenMsg, callOf, returnOf]
  have hafter : Adds (script.foldl (Hosted.handlerPost ref)
      (h.note (.called cb (h.bus.valueOf ref)))) (h.call ref cb script) [] [(cb, v)] := by
    simp only [Hosted.call, hi'.value]
    refine ⟨List.prefix_append _ _, rfl, ?_, ?_, ?_⟩ <;> simp [Hosted.note, takenMsg, callOf, returnOf]
  exact (hbefore.trans hadds).trans hafter

theorem calls_inHand {c m : Nat} {p : MsgPriority} {v : Value} {ref : MsgRef}
    (cbs : List κ) {scripts : List (List HandlerPost)} {h : Hosted w κ}
    {bus : TetraBs.MsgBus (List Byte) κ} (hi : InHand c m p v ref h bus)
    (hf : ∀ script ∈ scripts, ∀ hp ∈ script, hp.FromCaller) :
    ∃ bus', InHand c m p v ref (h.calls ref cbs scripts) bus' ∧
      Adds h (h.calls ref cbs scripts) (cbs.map fun cb => (cb, v)) (cbs.map fun cb => (cb, v)) := by
  induction cbs generalizing h bus scripts with
  | nil => exact ⟨bus, hi, Adds.refl h⟩
  | cons cb cbs ih =>
    have hhead : ∀ hp ∈ scripts.headD [], hp.FromCaller := by
      cases scripts with
      | nil => exact fun hp hmem => absurd hmem List.not_mem_nil
      | cons script scripts => exact hf script List.mem_cons_self
    have htail : ∀ script ∈ scripts.tail, ∀ hp ∈ script, hp.FromCaller :=
      fun script hmem => hf script (List.mem_of_mem_tail hmem)
    obtain ⟨bus', hi', hadds⟩ := call_inHand hi cb hhead
    obtain ⟨bus'', hi'', hadds'⟩ := ih hi' htail
    exact ⟨bus'', hi'', hadds.trans hadds'⟩

/-- A dispatch takes the next message into its hands. -/
theorem take_inHand {c m : Nat} {h : Hosted w κ} {bus : TetraBs.MsgBus (List Byte) κ}
    (ht : Tracks c m (fun _ => []) h bus) {p : MsgPriority}
    (hnext : nextNonemptyQueue h.bus = some p) :
    InHand c m p (h.bus.valueOf (headMsg h.bus p)) (headMsg h.bus p)
      (h.note (.taken p (h.bus.valueOf (headMsg h.bus p)))) bus := by
  rw [ht.shows.nextNonemptyQueue_eq] at hnext
  have hvalue := ht.shows.headMsg_value p
  have hbus : bus.next = some (p, h.bus.valueOf (headMsg h.bus p)) := by
    rw [TetraBs.MsgBus.next, hnext, hvalue]
    rfl
  obtain ⟨rest, hpend, hhigh, hnormal⟩ := next_eq_some hbus
  have hpass : ∀ p', posted p' h.trace = taken p' h.trace ++ bus.pending p' := by
    intro p'
    obtain ⟨gone, htaken, hposted⟩ := ht.queued p'
    rw [htaken, List.append_nil]
    exact hposted
  refine ⟨⟨ht.shows, fun p' => ?_, fun p' => ?_, fun {pre post p' msg} heq => ?_⟩,
    ⟨rest, hpend⟩, rfl⟩
  · refine ⟨taken p' h.trace, ?_, ?_⟩
    · by_cases hp : p' = p
      · simp [Hosted.note, taken, takenFrom, hp]
      · have hp' : ¬ p = p' := fun heq => hp heq.symm
        simp [Hosted.note, taken, takenFrom, hp, hp']
    · rw [← hpass p']
      simp [Hosted.note, posted, postedIn]
  · rw [ht.refused]
    simp [Hosted.note, refusals, isRefusal]
  · rcases List.eq_nil_or_concat post with rfl | ⟨post', e, rfl⟩
    · -- the event just noted
      obtain ⟨rfl, hlast⟩ := List.append_inj' heq rfl
      obtain ⟨rfl, rfl⟩ := Event.taken.inj (List.cons.inj hlast).1
      refine ⟨⟨rest, ?_⟩, fun p' hlt => ?_⟩
      · rw [hpass, hpend]
      · have hempty : bus.pending p' = [] := by
          cases p <;> cases p' <;> simp only [prioIndex] at hlt <;>
            first
              | exact absurd hlt (by decide)
              | exact hhigh (by decide)
              | exact hnormal rfl
        rw [hpass, hempty, List.append_nil]
    · have hinit : h.trace = pre ++ .taken p' msg :: post' := by
        have hcons : pre ++ Event.taken p' msg :: post'.concat e =
            (pre ++ Event.taken p' msg :: post') ++ [e] := by
          rw [List.concat_eq_append, List.append_assoc]
          rfl
        rw [hcons] at heq
        exact (List.append_inj' heq rfl).1
      exact ht.next hinit

/-- A dispatch frees the slot when its handlers are through. -/
theorem dispatch_tracks {c m : Nat} {h : Hosted w κ} {bus : TetraBs.MsgBus (List Byte) κ}
    (ht : Tracks c m (fun _ => []) h bus) {scripts : List (List HandlerPost)}
    (hf : ∀ script ∈ scripts, ∀ hp ∈ script, hp.FromCaller) {p : MsgPriority}
    (hnext : nextNonemptyQueue h.bus = some p) :
    ∃ bus', Tracks c m (fun _ => []) (h.dispatchOne scripts) bus' ∧
      Adds (h.note (.taken p (h.bus.valueOf (headMsg h.bus p)))) (h.dispatchOne scripts)
        ((matchingRegs h.bus (headMsg h.bus p)).map fun cb =>
          (cb, h.bus.valueOf (headMsg h.bus p)))
        ((matchingRegs h.bus (headMsg h.bus p)).map fun cb =>
          (cb, h.bus.valueOf (headMsg h.bus p))) := by
  obtain ⟨bus', hi, hadds⟩ := calls_inHand (matchingRegs h.bus (headMsg h.bus p))
    (take_inHand ht hnext) hf
  obtain ⟨rest, hrest⟩ := hi.waiting
  have hpos := (peek_of_pending hrest).1
  have hrun : h.dispatchOne scripts =
      { (h.note (.taken p (h.bus.valueOf (headMsg h.bus p)))).calls (headMsg h.bus p)
          (matchingRegs h.bus (headMsg h.bus p)) scripts with
        bus := msgbusAdvance ((h.note (.taken p (h.bus.valueOf (headMsg h.bus p)))).calls
          (headMsg h.bus p) (matchingRegs h.bus (headMsg h.bus p)) scripts).bus p } := by
    rw [Hosted.dispatchOne, hnext]
  rw [hrun]
  refine ⟨TetraBs.msgbusAdvance bus' p,
    ⟨advance_refines hi.tracks.shows hpos, fun p' => ?_, fun p' => ?_, hi.tracks.next⟩,
    hadds.grows, hadds.regs, hadds.taken, hadds.called, hadds.returned⟩
  · obtain ⟨gone, htaken, hposted⟩ := hi.tracks.queued p'
    rw [pending_advance]
    by_cases hp : p' = p
    · subst hp
      refine ⟨gone ++ [h.bus.valueOf (headMsg h.bus p')], ?_, ?_⟩
      · rw [List.append_nil]
        simpa using htaken
      · rw [if_pos rfl, List.append_assoc]
        rw [hrest] at hposted
        rw [hrest]
        exact hposted
    · refine ⟨gone, ?_, ?_⟩
      · simpa [hp] using htaken
      · rw [if_neg hp]
        exact hposted
  · rw [drops_advance]
    exact hi.tracks.refused p'

/-! Runs. -/

/-- The handlers got what the dispatches took. -/
structure Handed (h : Hosted w κ) : Prop where
  called : h.trace.filterMap callOf =
    (h.trace.filterMap takenMsg).flatMap fun m => (handlersOf h.bus.regs m).map fun cb => (cb, m)
  returned : h.trace.filterMap returnOf = h.trace.filterMap callOf

theorem step_handed {c m : Nat} {h : Hosted w κ} {bus : TetraBs.MsgBus (List Byte) κ}
    (ht : Tracks c m (fun _ => []) h bus) (hh : Handed h) {op : Op} (hf : op.FromCaller) :
    (∃ bus', Tracks c m (fun _ => []) (h.step op) bus') ∧ Handed (h.step op) := by
  cases op with
  | post p msg =>
    have hadds := post_adds h p msg
    refine ⟨⟨_, post_tracks ht p (FromCaller.sound hf h.bus)⟩, ?_, ?_⟩
    · rw [Hosted.step, hadds.called, hadds.taken, hadds.regs, List.append_nil]
      exact hh.called
    · rw [Hosted.step, hadds.returned, hadds.called, hh.returned]
  | dispatchOne scripts =>
    cases hnext : nextNonemptyQueue h.bus with
    | none =>
      have hrun : h.step (.dispatchOne scripts) = h := by
        rw [Hosted.step, Hosted.dispatchOne, hnext]
      rw [hrun]
      exact ⟨⟨bus, ht⟩, hh⟩
    | some p =>
      obtain ⟨bus', ht', hadds⟩ := dispatch_tracks ht hf hnext
      refine ⟨⟨bus', ht'⟩, ?_, ?_⟩
      · rw [Hosted.step, hadds.called, hadds.taken, hadds.regs]
        simp only [Hosted.note, List.filterMap_append, List.flatMap_append, hh.called]
        simp [callOf, takenMsg, handlersOf, matchingRegs, MsgBus.valueOf]
      · rw [Hosted.step, hadds.returned, hadds.called]
        simp only [Hosted.note, List.filterMap_append, hh.returned]
        rfl

theorem initialised_shows {b : MsgBus w κ} (hb : Initialised b) :
    ∃ c m, ∃ bus : TetraBs.MsgBus (List Byte) κ, Shows c m b bus ∧
      ∀ p, bus.pending p = [] ∧ (bus.queues p).drops = 0 := by
  induction hb with
  | init h =>
    obtain ⟨hcap, hshows⟩ := init_shows h
    exact ⟨_, _, _, hshows, fun p => ⟨rfl, rfl⟩⟩
  | register hb hreg ih =>
    obtain ⟨c, m, bus, hshows, hempty⟩ := ih
    obtain ⟨bus', hreg', hshows'⟩ := register_shows hshows hreg
    refine ⟨c, m, bus', hshows', fun p => ?_⟩
    rw [pending_register hreg', (msgbusRegister_ok hreg').2]
    exact hempty p

def Hosted.run (b : MsgBus w κ) (ops : List Op) : Hosted w κ := exec Hosted.step ⟨b, []⟩ ops

theorem run_handed {b : MsgBus w κ} (hb : Initialised b) {ops : List Op}
    (hf : ∀ op ∈ ops, op.FromCaller) :
    (∃ c m bus, Tracks c m (fun _ => []) (Hosted.run b ops) bus) ∧ Handed (Hosted.run b ops) := by
  obtain ⟨c, m, bus, hshows, hempty⟩ := initialised_shows hb
  have hstart : Tracks c m (fun _ => []) (⟨b, []⟩ : Hosted w κ) bus := by
    refine ⟨hshows, fun p => ⟨[], rfl, (hempty p).1.symm⟩, fun p => (hempty p).2, fun heq => ?_⟩
    exact absurd heq (by simp)
  have hhanded : Handed (⟨b, []⟩ : Hosted w κ) := ⟨rfl, rfl⟩
  let Inv (h : Hosted w κ) : Prop := (∃ bus, Tracks c m (fun _ => []) h bus) ∧ Handed h
  have hkeep : ∀ (h : Hosted w κ) op, Inv h → op.FromCaller → Inv (h.step op) := by
    rintro h op ⟨⟨bus', ht⟩, hh⟩ hop
    exact step_handed ht hh hop
  obtain ⟨⟨bus', ht⟩, hh⟩ := exec_invariant Inv hkeep ⟨⟨bus, hstart⟩, hhanded⟩
    (along_of_forall (fun op hop _ => hf op hop) _)
  exact ⟨⟨c, m, bus', ht⟩, hh⟩

theorem run_keeps {b : MsgBus w κ} (hb : Initialised b) {ops : List Op}
    (hf : ∀ op ∈ ops, op.FromCaller) : Contract (Hosted.run b ops) := by
  obtain ⟨⟨c, m, bus, ht⟩, hh⟩ := run_handed hb hf
  refine ⟨fun p => ?_, hh.called, hh.returned, ht.next, fun {scripts p} hscripts hwait => ?_,
    fun p => ?_⟩
  · obtain ⟨gone, htaken, hposted⟩ := ht.queued p
    rw [List.append_nil] at htaken
    rw [htaken, pending_shown ht.shows]
    exact hposted
  · cases hnext : nextNonemptyQueue (Hosted.run b ops).bus with
    | none =>
      have hbus : bus.next = none := by
        rw [TetraBs.MsgBus.next, ← ht.shows.nextNonemptyQueue_eq, hnext]
        rfl
      rw [pending_shown ht.shows] at hwait
      exact absurd (next_eq_none.1 hbus p) hwait
    | some p' =>
      obtain ⟨-, -, hadds⟩ := dispatch_tracks ht hscripts hnext
      exact ⟨p', _, hadds.grows⟩
  · rw [msgbusDrops, (ht.shows.queue p).drops_eq, ht.refused]

/-! A full bucket. -/

instance (dest sap : SapId) : Decidable (Refused dest sap) := inferInstanceAs (Decidable (_ ∨ _))

theorem post_full_again {h : Hosted w κ} {p : MsgPriority} {msg : MsgRef}
    (hvalid : ¬ Refused msg.dest msg.sap) (hbig : ¬ (h.bus.queues p).maxPayload < msg.len)
    (hfull : (h.bus.queues p).count = (h.bus.queues p).cap) :
    refusals p (h.post p msg).trace = refusals p h.trace + 1 ∧
      ¬ ((h.post p msg).bus.queues p).maxPayload < msg.len ∧
      ((h.post p msg).bus.queues p).count = ((h.post p msg).bus.queues p).cap := by
  simp only [Hosted.post, post_full hvalid hbig hfull, MsgBus.setQueue, if_true]
  refine ⟨?_, hbig, hfull⟩
  simp [refusals, postEvents, isRefusal]

/-- Every further post to a full bucket is refused. -/
theorem refused_replicate {h : Hosted w κ} {p : MsgPriority} (msg : MsgRef)
    (hvalid : ¬ Refused msg.dest msg.sap) (hbig : ¬ (h.bus.queues p).maxPayload < msg.len)
    (hfull : (h.bus.queues p).count = (h.bus.queues p).cap) (n : Nat) :
    refusals p (exec Hosted.step h (List.replicate n (.post p msg))).trace =
      refusals p h.trace + n := by
  induction n generalizing h with
  | zero => rfl
  | succ n ih =>
    obtain ⟨hone, hbig', hfull'⟩ := post_full_again hvalid hbig hfull
    have hrest := ih hbig' hfull'
    rw [hone] at hrest
    rw [List.replicate_succ, exec, Hosted.step, hrest]
    omega

/-- Capacity one, one payload byte, `size_t` of 32 bits. -/
def smallCfg : MsgBusCfg := ⟨1, 1, List.replicate 3 zeroEntry, List.replicate 3 0⟩

def smallBus : MsgBus 32 Nat where
  entryStorage := List.replicate 3 zeroEntry
  payloadStorage := List.replicate 3 0
  queues p := ⟨prioIndex p * 1, prioIndex p * 1 * 1, 1, 1, 0, 0, 0, 0⟩
  regs := [⟨.tleSap, .tleSap, 7⟩]
  regs_le := by decide

theorem smallBus_initialised : Initialised smallBus := by
  have hinit : msgbusInit 32 Nat smallCfg = .ok { smallBus with regs := [], regs_le := by decide } :=
    rfl
  have hreg : msgbusRegister { smallBus with regs := [], regs_le := by decide } .tleSap .tleSap 7 =
      .ok smallBus := rfl
  exact .register (.init hinit) hreg

def ping : MsgRef := ⟨.tmaSap, .tleSap, .tleSap, 1, .caller [0xA5]⟩

/-- One message that stays, and then `n` posts to the full bucket. -/
def flood (n : Nat) : List Op := .post .high ping :: List.replicate n (.post .high ping)

theorem flood_fromCaller (n : Nat) : ∀ op ∈ flood n, op.FromCaller := by
  intro op hop
  have hping : (Op.post .high ping).FromCaller := by decide
  cases hop with
  | head => exact hping
  | tail _ hop =>
    rw [List.eq_of_mem_replicate hop]
    exact hping

theorem flood_refusals (n : Nat) : refusals .high (Hosted.run smallBus (flood n)).trace = n := by
  have hall := refused_replicate (h := Hosted.step ⟨smallBus, []⟩ (.post .high ping))
    (p := .high) ping (by decide) (by decide) (by decide) n
  rw [Hosted.run, flood, exec, hall]
  exact Nat.zero_add n

/-! The contract. -/

/-- Every run of posts and dispatches on an initialised bus keeps the contract, whatever the
handlers post while they run. -/
theorem run_contract {b : MsgBus w κ} {ops : List Op} (hb : Initialised b)
    (hf : ∀ op ∈ ops, op.FromCaller) : Contract (Hosted.run b ops) := run_keeps hb hf

/-- A delivery whose handler forwards the payload it was given and is refused once. -/
theorem run_contract_forward :
    Contract (Hosted.run smallBus [.post .high ping,
      .dispatchOne [[.forward .high .tleSap .tleSap .tleSap,
        .forward .low .tleSap .tleSap .tleSap]], .dispatchOne []]) :=
  run_contract smallBus_initialised (by decide)

/-- The drop counter starts again when it has counted 2^32 refused posts. -/
theorem drops_wrap :
    refusals .high (Hosted.run smallBus (flood (2 ^ 32))).trace = 2 ^ 32 ∧
      msgbusDrops (Hosted.run smallBus (flood (2 ^ 32))).bus .high = 0 := by
  have hrefused := flood_refusals (2 ^ 32)
  have hdrops := (run_keeps smallBus_initialised (flood_fromCaller (2 ^ 32))).drops .high
  rw [hrefused] at hdrops
  exact ⟨hrefused, hdrops.trans (by decide)⟩

end TetraBs.BusStorage
