import TetraBs.Lib.JsonText

/-! `sw/socket_server.c`: one frame in, one handler called, one frame out. The JSON library is a
parameter. -/
namespace TetraBs.SocketServer
open TetraBs.Bits TetraBs.CStr TetraBs.JsonText

def DAEMON_OPS_MAX_FRAME_BYTES : Nat := 1024 * 1024
def DAEMON_OPS_LEN_PREFIX_BYTES : Nat := 4

/-- The names of `DAEMON_OP_LIST`. -/
def daemonOpList : List String :=
  ["status.summary", "status.layers", "status.phy_stats", "status.dma_stats", "status.txq",
    "status.msgbus", "status.calls", "status.groups", "status.fpga_regs", "status.aach_current",
    "profile.list", "profile.get", "profile.put", "profile.delete", "profile.reset",
    "entity.list", "entity.get", "entity.lookup", "entity.put", "entity.delete",
    "entity.clear_all", "session.list", "session.get", "session.stats", "db.export", "db.import",
    "db.reset", "policy.get", "policy.put", "debug.pdu_recent", "debug.pdu_stream",
    "debug.aach_recent", "debug.aach_stream", "debug.slot_schedule", "debug.irq_counters",
    "debug.msgbus_stream", "debug.log_tail", "debug.reg_read", "debug.reg_write",
    "debug.tmasap_recent", "debug.tmdsap_stats", "config.cell.get", "config.cell.put",
    "config.rf.get", "config.rf.put", "config.cipher.get", "config.cipher.put",
    "config.training.get", "config.training.put", "config.slot_table.get",
    "config.slot_table.put", "config.ad9361.get", "config.ad9361.put", "config.msgbus.get",
    "config.msgbus.put", "config.schema", "apply.status", "apply.apply", "apply.discard",
    "tools.pdu_send_form", "tools.pdu_send", "tools.reset_counters", "tools.reset_ast",
    "tools.reg_write", "tools.bitstream_list", "tools.bitstream_switch", "tools.capture_start",
    "tools.capture_stop", "tools.capture_list", "tools.capture_download", "tools.decoder_upload",
    "tools.decoder_list", "tools.decoder_run", "tools.decoder_result", "jobs.list", "jobs.get",
    "jobs.cancel", "daemon.stop", "daemon.restart"]

structure DaemonOpEntry where
  name : List Byte
  minArgsPresent : Option (List (List Byte))

/-- The table. No row asks for arguments. -/
def sOpTable : List DaemonOpEntry := daemonOpList.map fun n => ⟨ascii n, none⟩

def daemonOpTableFind (name : List Byte) : Option DaemonOpEntry :=
  sOpTable.find? fun e => e.name = name

structure Envelope where
  opName : List Byte
  args : Option Members
  reqId : Option (List Byte)
  client : Option (List Byte)

/-- `none` stands for `EINVAL`. -/
def daemonEnvelopeParse (root : Members) : Option Envelope :=
  match (lookup root (ascii "op")).bind Value.string? with
  | none => none
  | some op => some
    { opName := op
      args := (lookup root (ascii "args")).bind Value.object?
      reqId := (lookup root (ascii "req_id")).bind Value.string?
      client := (lookup root (ascii "client")).bind Value.string? }

def getBe32 (buf : List Byte) : Nat :=
  (buf.getD 0 0).toNat * 2 ^ 24 + (buf.getD 1 0).toNat * 2 ^ 16 + (buf.getD 2 0).toNat * 2 ^ 8 +
    (buf.getD 3 0).toNat

/-- The handler that a parsed envelope reaches. -/
def dispatch (env : Envelope) : Option DaemonOpEntry :=
  match daemonOpTableFind env.opName with
  | none => none
  | some entry =>
    match entry.minArgsPresent with
    | none => some entry
    | some keys =>
      match env.args with
      | none => none
      | some args => if keys.all fun k => (lookup args k).isSome then some entry else none

/-- The handler `socket_server_handle_client` calls for what a client sent, if it calls one. -/
def socketServerHandleClient (jsonLoadb : List Byte → Option Value) (stream : List Byte) :
    Option DaemonOpEntry :=
  if stream.length < DAEMON_OPS_LEN_PREFIX_BYTES then none
  else
    let bodyLen := getBe32 stream
    if bodyLen = 0 ∨ DAEMON_OPS_MAX_FRAME_BYTES < bodyLen then none
    else if (stream.drop DAEMON_OPS_LEN_PREFIX_BYTES).length < bodyLen then none
    else
      let body := (stream.drop DAEMON_OPS_LEN_PREFIX_BYTES).take bodyLen
      ((jsonLoadb body).bind Value.object?).bind fun root =>
        (daemonEnvelopeParse root).bind dispatch

theorem daemonOpTableFind_name (name : List Byte) :
    (daemonOpTableFind name).map (·.name) =
      if name ∈ daemonOpList.map ascii then some name else none := by
  rw [daemonOpTableFind, sOpTable]
  generalize daemonOpList = names
  induction names with
  | nil => rfl
  | cons n names ih =>
    rw [List.map_cons, List.map_cons, List.find?_cons]
    by_cases h : ascii n = name
    · simp [h]
    · have h' : ¬ name = ascii n := fun h' => h h'.symm
      simp only [h, decide_false, List.mem_cons, h', false_or]
      exact ih

theorem dispatch_name (env : Envelope) :
    (dispatch env).map (·.name) =
      if env.opName ∈ daemonOpList.map ascii then some env.opName else none := by
  rw [← daemonOpTableFind_name, dispatch]
  cases h : daemonOpTableFind env.opName with
  | none => rfl
  | some entry =>
    obtain ⟨n, -, rfl⟩ := List.mem_map.1 (List.mem_of_find?_eq_some h)
    rfl

/-- The handler that is called is the one the last op names, if that is a string of the table. -/
theorem parse_dispatch_iff (root : Members) (op : List Byte) :
    ((daemonEnvelopeParse root).bind dispatch).map (·.name) = some op ↔
      lookup root (ascii "op") = some (.string op) ∧ op ∈ daemonOpList.map ascii := by
  rw [daemonEnvelopeParse]
  cases hop : lookup root (ascii "op") with
  | none => simp
  | some v =>
    cases v with
    | string s =>
      simp only [Option.bind_some, Value.string?, dispatch_name]
      constructor
      · intro h
        split at h
        · rename_i hmem
          cases h
          exact ⟨rfl, hmem⟩
        · cases h
      · rintro ⟨hs, hmem⟩
        cases hs
        rw [if_pos hmem]
    | _ => simp [Value.string?]

/-- One frame with its length in front is read as a whole. -/
theorem handleClient_frame (jsonLoadb : List Byte → Option Value) {len body : List Byte}
    (hlen : len.length = DAEMON_OPS_LEN_PREFIX_BYTES) (hbe : getBe32 (len ++ body) = body.length)
    (hpos : 0 < body.length) (hmax : body.length ≤ DAEMON_OPS_MAX_FRAME_BYTES) :
    socketServerHandleClient jsonLoadb (len ++ body) =
      ((jsonLoadb body).bind Value.object?).bind fun root =>
        (daemonEnvelopeParse root).bind dispatch := by
  have hdrop : (len ++ body).drop DAEMON_OPS_LEN_PREFIX_BYTES = body := by
    rw [← hlen, List.drop_left]
  have hge : ¬ (len ++ body).length < DAEMON_OPS_LEN_PREFIX_BYTES := by
    rw [List.length_append]
    omega
  have hrange : ¬ (body.length = 0 ∨ DAEMON_OPS_MAX_FRAME_BYTES < body.length) := by omega
  rw [socketServerHandleClient, if_neg hge]
  simp only [hbe, hdrop, if_neg hrange, lt_irrefl, if_false, List.take_length]

/-! The answers. `json_dumps` is a parameter too. -/

inductive DaemonErrCode where
  | none
  | einval
  | enoent
  | eexist
  | erofs
  | eperm
  | ebusy
  | enospc
  | erange
  | eref
  | esched
  | efpga
  | eio
  | e2big
  | einternal

def daemonErrName : DaemonErrCode → String
  | .none => "OK"
  | .einval => "EINVAL"
  | .enoent => "ENOENT"
  | .eexist => "EEXIST"
  | .erofs => "EROFS"
  | .eperm => "EPERM"
  | .ebusy => "EBUSY"
  | .enospc => "ENOSPC"
  | .erange => "ERANGE"
  | .eref => "EREF"
  | .esched => "ESCHED"
  | .efpga => "EFPGA"
  | .eio => "EIO"
  | .e2big => "E2BIG"
  | .einternal => "EINTERNAL"

/-- A member, unless its string is a null pointer. -/
def memberOf (key : String) (s : Option (List Byte)) : Members :=
  match s with
  | none => []
  | some s => [(ascii key, .string s)]

def daemonEnvelopeOk (reqId : Option (List Byte)) (data : Value) : Value :=
  .object ([(ascii "ok", .bool true)] ++ memberOf "req_id" reqId ++ [(ascii "data", data)])

def daemonEnvelopeErr (reqId : Option (List Byte)) (code : DaemonErrCode)
    (message field : Option (List Byte)) : Value :=
  .object ([(ascii "ok", .bool false)] ++ memberOf "req_id" reqId ++
    [(ascii "error", .object ([(ascii "code", .string (ascii (daemonErrName code)))] ++
      memberOf "message" message ++ memberOf "field" field))])

/-- The ops whose handlers answer with an empty list. -/
def listOps : List String :=
  ["status.calls", "status.groups", "profile.list", "session.list", "debug.pdu_recent",
    "debug.aach_recent", "debug.slot_schedule", "debug.log_tail", "debug.tmasap_recent",
    "tools.bitstream_list", "tools.capture_list", "tools.decoder_list", "jobs.list"]

/-- And those that answer with an object of some members. -/
def objectOps : List (String × Members) :=
  let job : Members := [(ascii "job_id", .string (ascii "0"))]
  [("status.summary", [(ascii "cell_synced", .bool false), (ascii "uptime_s", .number (ascii "0")),
      (ascii "fpga_bitstream_id", .string []), (ascii "sw_version", .string (ascii "tetra_d/0"))]),
    ("entity.list", [(ascii "total", .number (ascii "0")), (ascii "items", .array [])]),
    ("session.stats", [(ascii "capacity", .number (ascii "64")),
      (ascii "used", .number (ascii "0")), (ascii "free", .number (ascii "64"))]),
    ("apply.status", [(ascii "has_pending", .bool false), (ascii "pending_groups", .array [])]),
    ("tools.pdu_send", [(ascii "would_send", .bool false), (ascii "tma_frame_hex", .string [])]),
    ("tools.reset_counters", [(ascii "cleared", .array [])]),
    ("tools.reset_ast", [(ascii "flushed_slots", .number (ascii "0"))]),
    ("tools.bitstream_switch", job), ("tools.capture_start", job), ("tools.decoder_run", job),
    ("daemon.restart", job)]

/-- What a handler stores for its op. `snapshots` says whether the daemon has a path for the AST. -/
def sHandler (snapshots : Bool) (name : List Byte) : Value :=
  if name = ascii "daemon.stop" then
    .object [(ascii "ok", .bool true), (ascii "ast_snapshotted", .bool snapshots)]
  else if name ∈ listOps.map ascii then .array []
  else .object (((objectOps.find? fun e => ascii e.1 = name).map (·.2)).getD [])

/-- The answer to a body, and the handler that is called for it. -/
def answer (jsonLoadb : List Byte → Option Value) (snapshots : Bool) (body : List Byte) :
    Value × Option (List Byte) :=
  let refuse reqId (message : String) (field : List Byte) : Value × Option (List Byte) :=
    (daemonEnvelopeErr reqId .einval (some (ascii message)) (some field), none)
  match (jsonLoadb body).bind Value.object? with
  | none => refuse none "envelope is not a JSON object" (ascii "body")
  | some root =>
    match daemonEnvelopeParse root with
    | none => refuse none "missing or invalid op" (ascii "op")
    | some env =>
      match daemonOpTableFind env.opName with
      | none => refuse env.reqId "unknown op" (ascii "op")
      | some entry =>
        match entry.minArgsPresent with
        | none => (daemonEnvelopeOk env.reqId (sHandler snapshots entry.name), some entry.name)
        | some keys =>
          match env.args with
          | none => refuse env.reqId "args missing" (ascii "args")
          | some args =>
            match keys.find? fun k => (lookup args k).isNone with
            | some k => refuse env.reqId "required arg missing" k
            | none => (daemonEnvelopeOk env.reqId (sHandler snapshots entry.name), some entry.name)

/-- The answer to a length that is out of range. -/
def lengthRefused : Value :=
  daemonEnvelopeErr none .e2big (some (ascii "frame length out of range")) (some (ascii "len"))

def putBe32 (v : Nat) : List Byte :=
  [BitVec.ofNat 8 (v / 2 ^ 24), BitVec.ofNat 8 (v / 2 ^ 16), BitVec.ofNat 8 (v / 2 ^ 8),
    BitVec.ofNat 8 v]

/-- The frame of an envelope, if its text is not too long. -/
def daemonEnvelopeMarshal (jsonDumps : Value → Option CString) (env : Value) :
    Option (List Byte) :=
  match jsonDumps env with
  | none => none
  | some body =>
    if DAEMON_OPS_MAX_FRAME_BYTES < body.val.length then none
    else some (putBe32 body.val.length ++ body.val)

/-- The handler of an answer is the one that the request reaches. -/
theorem answer_handler (jsonLoadb : List Byte → Option Value) (snapshots : Bool)
    (body : List Byte) :
    (answer jsonLoadb snapshots body).2 =
      (((jsonLoadb body).bind Value.object?).bind fun root =>
        (daemonEnvelopeParse root).bind dispatch).map (·.name) := by
  rw [answer]
  cases (jsonLoadb body).bind Value.object? with
  | none => rfl
  | some root =>
    simp only [Option.bind_some]
    cases daemonEnvelopeParse root with
    | none => rfl
    | some env =>
      simp only [Option.bind_some, dispatch]
      cases hfind : daemonOpTableFind env.opName with
      | none => rfl
      | some entry =>
        obtain ⟨n, -, rfl⟩ := List.mem_map.1 (List.mem_of_find?_eq_some hfind)
        rfl

end TetraBs.SocketServer
