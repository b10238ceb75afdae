import TetraBs.Lib.Framing
import TetraBs.Webui.AllowList

/-! One request of a CGI on the daemon's socket: `cgi_run` from the write of the request on and
`socket_server_handle_client`, each with as many bytes at a time as it gets. A call that a signal
breaks off is repeated and is no event. -/
namespace TetraBs.Webui
open TetraBs.Bits TetraBs.CStr TetraBs.Framing TetraBs.JsonText TetraBs.SocketServer

def CGI_ENVELOPE_MAX : Nat := 1024 * 1024

def cgiUnpackLenBe (b : List Byte) : Nat :=
  (b.getD 0 0).toNat * 2 ^ 24 + (b.getD 1 0).toNat * 2 ^ 16 + (b.getD 2 0).toNat * 2 ^ 8 +
    (b.getD 3 0).toNat

/-- The frames that `cgi_run` reads. -/
def cgiFormat : Format Byte where
  header := 4
  length := cgiUnpackLenBe
  accepts n := decide (n ≠ 0 ∧ n ≤ CGI_ENVELOPE_MAX)

/-- The frames that `socket_server_handle_client` reads. -/
def serverFormat : Format Byte where
  header := DAEMON_OPS_LEN_PREFIX_BYTES
  length := getBe32
  accepts n := decide (n ≠ 0 ∧ n ≤ DAEMON_OPS_MAX_FRAME_BYTES)

/-- What `cgi_run` prints: the daemon's answer as it came, or one of its own. -/
inductive CgiAnswer where
  | response (body : List Byte)
  | refused (r : Refusal)
deriving DecidableEq

inductive CgiPhase where
  | writing
  | reading
  | finished (out : CgiAnswer)
deriving DecidableEq

/-- `killed` is the end of the process: unlike a CGI, the daemon does not ignore SIGPIPE. -/
inductive ServerPhase where
  | reading
  | writing
  | closed
  | killed
deriving DecidableEq

/-- Both ends of the socket. `handled` has the ops of the handlers that were called. -/
structure Exchange where
  cgi : CgiPhase
  server : ServerPhase
  up : Wire Byte
  down : Wire Byte
  handled : List (List Byte)

/-- A write or a read of some bytes; the end of the connection as the other end has closed it; an
error or the deadline of the CGI. -/
inductive Event where
  | cgiWrite (n : Nat)
  | cgiRead (n : Nat)
  | cgiHangup
  | cgiFails
  | cgiTimesOut
  | serverRead (n : Nat)
  | serverWrite (n : Nat)
  | serverHangup
  | serverFails

def Event.isFault : Event → Bool
  | .cgiFails | .cgiTimesOut | .serverFails => true
  | _ => false

def refuse (status : Nat) (message : String) : CgiPhase :=
  .finished (.refused ⟨status, "EINTERNAL", message⟩)

/-- The answer when the daemon's cannot be read. -/
def readFailed (status : Nat) (down : Wire Byte) : CgiPhase :=
  refuse status (if down.got.length < 4 then "response header read failed"
    else "response body read failed")

/-- What the CGI does with what it has read. -/
def afterRead (down : Wire Byte) : CgiPhase :=
  match cgiFormat.reading down.got with
  | .wants _ => .reading
  | .refused => refuse 502 "response length invalid"
  | .frame body => .finished (.response body)

namespace Exchange

def start (frame : List Byte) : Exchange := ⟨.writing, .reading, { left := frame }, {}, []⟩

def cgiWrite (x : Exchange) (n : Nat) : Exchange :=
  { x with up := x.up.write n, cgi := if (x.up.write n).left = [] then .reading else .writing }

def cgiRead (x : Exchange) (n : Nat) : Exchange :=
  { x with down := x.down.read n, cgi := afterRead (x.down.read n) }

variable (jsonLoadb : List Byte → Option Value) (jsonDumps : Value → Option CString)
variable (snapshots : Bool)

/-- `send_envelope` behind a handler. -/
def sendEnvelope (x : Exchange) (a : Value × Option (List Byte)) : Exchange :=
  match daemonEnvelopeMarshal jsonDumps a.1 with
  | none => { x with server := .closed, handled := x.handled ++ a.2.toList }
  | some frame => { x with
      server := .writing, handled := x.handled ++ a.2.toList
      down := { x.down with left := frame } }

def serverRead (x : Exchange) (n : Nat) : Exchange :=
  let x := { x with up := x.up.read n }
  match serverFormat.reading x.up.got with
  | .wants _ => x
  | .refused => x.sendEnvelope jsonDumps (lengthRefused, none)
  | .frame body => x.sendEnvelope jsonDumps (answer jsonLoadb snapshots body)

def serverWrite (x : Exchange) (n : Nat) : Exchange :=
  { x with
    down := x.down.write n
    server := if (x.down.write n).left = [] then .closed else .writing }

/-- A reader asks for as many bytes as it wants and gets some that are on the way. -/
def mayRead (f : Format Byte) (w : Wire Byte) (n : Nat) : Bool :=
  match f.reading w.got with
  | .wants m => decide (0 < n ∧ n ≤ m ∧ n ≤ w.flight.length)
  | _ => false

def isFinished (x : Exchange) : Bool :=
  match x.cgi with
  | .finished _ => true
  | _ => false

/-- The state an event leads to, if it can happen. -/
def step (x : Exchange) (e : Event) : Option Exchange :=
  match e, x.cgi, x.server with
  | .cgiWrite n, .writing, server =>
    if server ≠ .closed ∧ 0 < n ∧ n ≤ x.up.left.length then some (x.cgiWrite n) else none
  | .cgiRead n, .reading, _ => if mayRead cgiFormat x.down n then some (x.cgiRead n) else none
  | .cgiHangup, .writing, .closed => some { x with cgi := refuse 502 "request write failed" }
  | .cgiHangup, .reading, .closed =>
    if x.down.flight = [] then some { x with cgi := readFailed 502 x.down } else none
  | .cgiFails, .writing, _ => some { x with cgi := refuse 502 "request write failed" }
  | .cgiFails, .reading, _ => some { x with cgi := readFailed 502 x.down }
  | .cgiTimesOut, .reading, _ => some { x with cgi := readFailed 504 x.down }
  | .serverRead n, _, .reading =>
    if mayRead serverFormat x.up n then some (x.serverRead jsonLoadb jsonDumps snapshots n)
    else none
  | .serverWrite n, _, .writing =>
    if x.isFinished = false ∧ 0 < n ∧ n ≤ x.down.left.length then some (x.serverWrite n) else none
  | .serverHangup, .finished _, .reading =>
    if x.up.flight = [] then some { x with server := .closed } else none
  | .serverHangup, .finished _, .writing => some { x with server := .killed }
  | .serverFails, _, .reading => some { x with server := .closed }
  | .serverFails, _, .writing => some { x with server := .closed }
  | _, _, _ => none

/-- A run of events. -/
def run : List Event → Exchange → Option Exchange
  | [], x => some x
  | e :: es, x => (step jsonLoadb jsonDumps snapshots x e).bind (run es)

/-! What an exchange is to come to. -/

/-- The frame that the daemon answers a request with. -/
def reply (req : List Byte) : Option (List Byte) :=
  daemonEnvelopeMarshal jsonDumps (answer jsonLoadb snapshots req).1

/-- What the CGI prints if nothing goes wrong on the way: the text of the answer, if there is
one. -/
def outcome (req : List Byte) : CgiAnswer :=
  match jsonDumps (answer jsonLoadb snapshots req).1 with
  | none => .refused ⟨502, "EINTERNAL", "response header read failed"⟩
  | some text =>
    if DAEMON_OPS_MAX_FRAME_BYTES < text.val.length then
      .refused ⟨502, "EINTERNAL", "response header read failed"⟩
    else if text.val = [] then .refused ⟨502, "EINTERNAL", "response length invalid"⟩
    else .response text.val

/-- The ops of the handlers that a request is to reach. -/
def handlers (req : List Byte) : List (List Byte) := (answer jsonLoadb snapshots req).2.toList

/-- The daemon has not come to the end of the request. -/
structure Unserved (x : Exchange) : Prop where
  handled : x.handled = []
  down : x.down = {}
  waits : x.server = .reading → x.up.flight ++ x.up.left ≠ []
  server : x.server = .reading ∨ x.server = .closed

/-- The daemon has read the request and called the handler. -/
structure Served (frame : List Byte) (req : List Byte) (x : Exchange) : Prop where
  got : x.up.got = frame
  handled : x.handled = handlers jsonLoadb snapshots req
  down : x.down.whole = (reply jsonLoadb jsonDumps snapshots req).getD []
  server : x.server ≠ .reading
  sending : x.server = .writing → x.down.left ≠ []

/-- What holds in every run, whatever goes wrong in it. -/
structure Inv (frame : List Byte) (req : List Byte) (x : Exchange) : Prop where
  up : x.up.whole = frame
  sending : x.cgi = .writing → x.up.left ≠ []
  sent : x.cgi = .reading → x.up.left = []
  served : Unserved x ∨ Served jsonLoadb jsonDumps snapshots frame req x
  waits : x.isFinished = false → ∃ n, cgiFormat.reading x.down.got = .wants n ∧ 0 < n
  response : ∀ b, x.cgi = .finished (.response b) → outcome jsonLoadb jsonDumps snapshots req =
    .response b ∧ x.down.left = [] ∧ Served jsonLoadb jsonDumps snapshots frame req x
  refused : ∀ r, x.cgi = .finished (.refused r) → r.code = "EINTERNAL" ∧
    (r.status = 502 ∨ r.status = 504)
  killed : x.server = .killed → ∃ r, x.cgi = .finished (.refused r)

section
variable {jsonLoadb jsonDumps snapshots}
variable {frame req : List Byte} {x y : Exchange}

/-- The answer and its frame. -/
structure ReplyText (jsonLoadb : List Byte → Option Value) (jsonDumps : Value → Option CString)
    (snapshots : Bool) (req f text : List Byte) : Prop where
  frames : cgiFormat.Frames f text
  length : f.length = 4 + text.length
  max : text.length ≤ CGI_ENVELOPE_MAX
  outcome : outcome jsonLoadb jsonDumps snapshots req =
    if cgiFormat.accepts text.length = false then
      .refused ⟨502, "EINTERNAL", "response length invalid"⟩
    else .response text

theorem reply_text {f : List Byte} (h : reply jsonLoadb jsonDumps snapshots req = some f) :
    ∃ text, ReplyText jsonLoadb jsonDumps snapshots req f text := by
  rw [reply, daemonEnvelopeMarshal] at h
  cases htext : jsonDumps (answer jsonLoadb snapshots req).1 with
  | none => simp only [htext, reduceCtorEq] at h
  | some text =>
    simp only [htext] at h
    split at h
    · cases h
    rename_i hmax
    have hlt : text.val.length ≤ CGI_ENVELOPE_MAX := Nat.le_of_not_lt hmax
    refine ⟨text.val, ⟨putBe32 text.val.length, (Option.some.inj h).symm, rfl, ?_⟩, ?_, hlt, ?_⟩
    · show cgiUnpackLenBe (putBe32 text.val.length) = _
      rw [CGI_ENVELOPE_MAX] at hlt
      simp only [cgiUnpackLenBe, putBe32, List.getD_cons_zero, List.getD_cons_succ,
        BitVec.toNat_ofNat]
      omega
    · rw [← Option.some.inj h, List.length_append]
      rfl
    · rw [Exchange.outcome, htext]
      dsimp only
      rw [if_neg hmax]
      by_cases hnil : text.val = []
      · have hno : cgiFormat.accepts text.val.length = false := by rw [hnil]; rfl
        rw [if_pos hnil, if_pos hno]
      · have hpos := List.length_pos_iff.2 hnil
        have hok : cgiFormat.accepts text.val.length = true :=
          decide_eq_true ⟨by omega, hlt⟩
        rw [if_neg hnil, if_neg (by rw [hok]; decide)]

/-- Of an answer the CGI has read a part, or a length it does not take, or all of it. -/
theorem afterRead_cases {f text rest : List Byte} {down : Wire Byte} (h : cgiFormat.Frames f text)
    (hall : down.got ++ rest = f) :
    (afterRead down = .reading ∧ ∃ n, cgiFormat.reading down.got = .wants n ∧ 0 < n) ∨
      (afterRead down = refuse 502 "response length invalid" ∧ 4 ≤ down.got.length ∧
        cgiFormat.accepts text.length = false) ∨
      afterRead down = .finished (.response text) ∧ down.got = f ∧
        cgiFormat.accepts text.length = true := by
  rw [afterRead]
  obtain ⟨n, hwants, hn, -⟩ | hsame := h.progress hall
  · exact .inl ⟨by rw [hwants], n, hwants, hn⟩
  · rw [h.complete] at hsame
    by_cases hok : cgiFormat.accepts text.length = false
    · rw [if_pos hok] at hsame
      refine .inr (.inl ⟨by rw [hsame], ?_, hok⟩)
      by_contra hshort
      have hless : down.got.length < cgiFormat.header := Nat.lt_of_not_le hshort
      rw [h.reading_eq hall, if_pos hless] at hsame
      cases hsame
    · rw [if_neg hok] at hsame
      exact .inr (.inr ⟨by rw [hsame], (h.frame_whole hall hsame).2, eq_true_of_ne_false hok⟩)

theorem outcome_none (h : reply jsonLoadb jsonDumps snapshots req = none) :
    outcome jsonLoadb jsonDumps snapshots req =
      .refused ⟨502, "EINTERNAL", "response header read failed"⟩ := by
  rw [reply, daemonEnvelopeMarshal] at h
  rw [outcome]
  cases htext : jsonDumps (answer jsonLoadb snapshots req).1 with
  | none => rfl
  | some text =>
    simp only [htext] at h
    split at h
    · rename_i hmax
      exact if_pos hmax
    · cases h

theorem mayRead_eq {f : Format Byte} {w : Wire Byte} {n : Nat} (h : mayRead f w n = true) :
    0 < n ∧ n ≤ w.flight.length := by
  rw [mayRead] at h
  split at h
  · exact ⟨(of_decide_eq_true h).1, (of_decide_eq_true h).2.2⟩
  · cases h

theorem inv_start (hframe : frame ≠ []) :
    Inv jsonLoadb jsonDumps snapshots frame req (start frame) where
  up := rfl
  sending _ := hframe
  sent h := by cases h
  served := .inl ⟨rfl, rfl, fun _ => hframe, .inl rfl⟩
  waits _ := ⟨4, rfl, by decide⟩
  response _ h := by cases h
  refused _ h := by cases h
  killed h := by cases h

/-! What an event does to a party. The other one, and what it knows, stays. -/

theorem Unserved.of_eq (h : Unserved x) (hup : y.up.flight ++ y.up.left = x.up.flight ++ x.up.left)
    (hdown : y.down = x.down) (hserver : y.server = x.server) (hhandled : y.handled = x.handled) :
    Unserved y where
  handled := hhandled.trans h.handled
  down := hdown.trans h.down
  waits hs := by
    rw [hup]
    exact h.waits (hserver ▸ hs)
  server := by
    rw [hserver]
    exact h.server

/-- The answer is on its way, or there is none. -/
theorem sendEnvelope_served (hgot : x.up.got = frame) (hhandled : x.handled = [])
    (hdown : x.down = {}) :
    Served jsonLoadb jsonDumps snapshots frame req
        (x.sendEnvelope jsonDumps (answer jsonLoadb snapshots req)) ∧
      (x.sendEnvelope jsonDumps (answer jsonLoadb snapshots req)).cgi = x.cgi ∧
      (x.sendEnvelope jsonDumps (answer jsonLoadb snapshots req)).up = x.up ∧
      (x.sendEnvelope jsonDumps (answer jsonLoadb snapshots req)).down.got = [] ∧
      (x.sendEnvelope jsonDumps (answer jsonLoadb snapshots req)).server ≠ .killed ∧
      ((x.sendEnvelope jsonDumps (answer jsonLoadb snapshots req)).server = .closed →
        (x.sendEnvelope jsonDumps (answer jsonLoadb snapshots req)).down.left = []) := by
  have hcalled : x.handled ++ (answer jsonLoadb snapshots req).2.toList =
      handlers jsonLoadb snapshots req := by
    rw [hhandled, List.nil_append, handlers]
  rw [sendEnvelope, hdown, hcalled]
  cases hreply : daemonEnvelopeMarshal jsonDumps (answer jsonLoadb snapshots req).1 with
  | none =>
    refine ⟨⟨hgot, rfl, ?_, by simp, by simp⟩, rfl, rfl, rfl, by simp, fun _ => rfl⟩
    rw [reply, hreply]
    rfl
  | some f =>
    refine ⟨⟨hgot, rfl, ?_, by simp, fun _ hnil => ?_⟩, rfl, rfl, rfl, by simp, by simp⟩
    · rw [reply, hreply]
      rfl
    · obtain ⟨text, htext⟩ := reply_text hreply
      have hnil : f = [] := hnil
      have hlen := htext.length
      rw [hnil, List.length_nil] at hlen
      omega

variable (h : Inv jsonLoadb jsonDumps snapshots frame req x)
include h

theorem Inv.cgiWrite {n : Nat} (hcgi : x.cgi = .writing) :
    Inv jsonLoadb jsonDumps snapshots frame req (x.cgiWrite n) where
  up := (Wire.whole_write n x.up).trans h.up
  sending hs := by
    intro hleft
    have hreading : (x.cgiWrite n).cgi = .reading := if_pos hleft
    rw [hreading] at hs
    cases hs
  sent hs := by
    by_contra hleft
    have hwriting : (x.cgiWrite n).cgi = .writing := if_neg hleft
    rw [hwriting] at hs
    cases hs
  served := by
    have hsame : (x.cgiWrite n).up.flight ++ (x.cgiWrite n).up.left =
        x.up.flight ++ x.up.left := by
      simp only [Exchange.cgiWrite, Wire.write, List.append_assoc, List.take_append_drop]
    obtain hun | hs := h.served
    · exact .inl (hun.of_eq hsame rfl rfl rfl)
    · exact .inr ⟨hs.got, hs.handled, hs.down, hs.server, hs.sending⟩
  waits _ := h.waits (by rw [isFinished, hcgi])
  response b hs := by
    simp only [Exchange.cgiWrite] at hs
    split at hs <;> cases hs
  refused r hs := by
    simp only [Exchange.cgiWrite] at hs
    split at hs <;> cases hs
  killed hs := by
    obtain ⟨r, hr⟩ := h.killed hs
    rw [hcgi] at hr
    cases hr

/-- What the CGI reads is of the daemon's answer. -/
theorem Inv.reads_reply {n : Nat} (hmay : mayRead cgiFormat x.down n = true) :
    Served jsonLoadb jsonDumps snapshots frame req x ∧
      ∃ f text, ReplyText jsonLoadb jsonDumps snapshots req f text ∧
        (x.cgiRead n).down.whole = (reply jsonLoadb jsonDumps snapshots req).getD [] ∧
        (x.cgiRead n).down.got ++ ((x.cgiRead n).down.flight ++ (x.cgiRead n).down.left) = f := by
  obtain ⟨hn, hle⟩ := mayRead_eq hmay
  obtain hun | hs := h.served
  · rw [hun.down] at hle
    exact absurd hle (by show ¬n ≤ 0; omega)
  have hall := hs.down
  have hwhole : (x.cgiRead n).down.whole = x.down.whole := Wire.whole_read n x.down
  cases hreply : reply jsonLoadb jsonDumps snapshots req with
  | none =>
    rw [hreply, Option.getD_none, Wire.whole, List.append_eq_nil_iff,
      List.append_eq_nil_iff] at hall
    rw [hall.1.2] at hle
    exact absurd hle (by show ¬n ≤ 0; omega)
  | some f =>
    obtain ⟨text, htext⟩ := reply_text hreply
    rw [hreply, Option.getD_some, ← hwhole] at hall
    refine ⟨hs, f, text, htext, hall, ?_⟩
    rw [← List.append_assoc]
    exact hall

theorem Inv.cgiRead {n : Nat} (hcgi : x.cgi = .reading) (hmay : mayRead cgiFormat x.down n = true) :
    Inv jsonLoadb jsonDumps snapshots frame req (x.cgiRead n) := by
  obtain ⟨hs, f, text, htext, hwhole, hall⟩ := h.reads_reply hmay
  have hserved : Served jsonLoadb jsonDumps snapshots frame req (x.cgiRead n) :=
    ⟨hs.got, hs.handled, hwhole, hs.server, hs.sending⟩
  have hcases := afterRead_cases htext.frames hall
  have hphase : (x.cgiRead n).cgi = afterRead (x.cgiRead n).down := rfl
  rw [← hphase] at hcases
  refine ⟨h.up, fun hw => ?_, fun _ => h.sent hcgi, .inr hserved, fun hf => ?_, fun b hb => ?_,
    fun r hr => ?_, fun hk => ?_⟩
  · obtain ⟨hread, -⟩ | ⟨hread, -⟩ | ⟨hread, -⟩ := hcases <;> rw [hread] at hw <;> cases hw
  · obtain ⟨-, hwants⟩ | ⟨hread, -⟩ | ⟨hread, -⟩ := hcases
    · exact hwants
    · rw [isFinished, hread, refuse] at hf
      cases hf
    · rw [isFinished, hread] at hf
      cases hf
  · obtain ⟨hread, -⟩ | ⟨hread, -⟩ | ⟨hread, hgot, hok⟩ := hcases <;> rw [hread] at hb <;> cases hb
    have hrest : (x.cgiRead n).down.flight ++ (x.cgiRead n).down.left = [] := by
      rw [hgot] at hall
      exact List.append_cancel_left (hall.trans (List.append_nil f).symm)
    have hout := htext.outcome
    rw [if_neg (by rw [hok]; decide)] at hout
    exact ⟨hout, (List.append_eq_nil_iff.1 hrest).2, hserved⟩
  · obtain ⟨hread, -⟩ | ⟨hread, -⟩ | ⟨hread, -⟩ := hcases <;> rw [hread] at hr <;> cases hr
    exact ⟨rfl, .inl rfl⟩
  · obtain ⟨r, hr⟩ := h.killed hk
    rw [hcgi] at hr
    cases hr

/-- The CGI gives up. -/
theorem Inv.giveUp {status : Nat} (hstatus : status = 502 ∨ status = 504) (message : String) :
    Inv jsonLoadb jsonDumps snapshots frame req { x with cgi := refuse status message } where
  up := h.up
  sending hs := by cases hs
  sent hs := by cases hs
  served := by
    obtain hun | hs := h.served
    · exact .inl (hun.of_eq rfl rfl rfl rfl)
    · exact .inr ⟨hs.got, hs.handled, hs.down, hs.server, hs.sending⟩
  waits hs := by cases hs
  response b hs := by cases hs
  refused r hs := by
    cases hs
    exact ⟨rfl, hstatus⟩
  killed _ := ⟨_, rfl⟩

theorem Inv.unserved (hserver : x.server = .reading) : Unserved x := by
  obtain hun | hs := h.served
  · exact hun
  · exact absurd hserver hs.server

/-- The daemon ends. It is killed only by a CGI that gave up. -/
theorem Inv.serverEnds {phase : ServerPhase}
    (hend : x.server = .reading ∧ phase = .closed ∨
      x.server = .writing ∧ (phase = .closed ∨ phase = .killed))
    (hkilled : phase = .killed → ∃ r, x.cgi = .finished (.refused r)) :
    Inv jsonLoadb jsonDumps snapshots frame req { x with server := phase } := by
  have hphase : phase ≠ .reading ∧ phase ≠ .writing := by
    obtain ⟨-, rfl⟩ | ⟨-, rfl | rfl⟩ := hend <;> exact ⟨by decide, by decide⟩
  have hkept : ∀ hs : Served jsonLoadb jsonDumps snapshots frame req x,
      Served jsonLoadb jsonDumps snapshots frame req { x with server := phase } := fun hs =>
    ⟨hs.got, hs.handled, hs.down, hphase.1, fun hw => absurd hw hphase.2⟩
  refine ⟨h.up, h.sending, h.sent, ?_, h.waits, fun b hb => ?_, h.refused, hkilled⟩
  · obtain ⟨hserver, hclosed⟩ | ⟨hserver, -⟩ := hend
    · have hun := h.unserved hserver
      exact .inl ⟨hun.handled, hun.down, fun hw => absurd hw hphase.1, .inr hclosed⟩
    · obtain hun | hs := h.served
      · obtain hr | hr := hun.server <;> rw [hserver] at hr <;> cases hr
      · exact .inr (hkept hs)
  · obtain ⟨hout, hleft, hs⟩ := h.response b hb
    exact ⟨hout, hleft, hkept hs⟩

/-- The daemon still waits for more of the request, or it has all of it and answers. -/
theorem Inv.serverRead_cases (hframe : serverFormat.Frames frame req)
    (hok : serverFormat.accepts req.length = true) (n : Nat) :
    x.serverRead jsonLoadb jsonDumps snapshots n = { x with up := x.up.read n } ∧
        (x.up.read n).flight ++ (x.up.read n).left ≠ [] ∨
      x.serverRead jsonLoadb jsonDumps snapshots n =
        { x with up := x.up.read n }.sendEnvelope jsonDumps (answer jsonLoadb snapshots req) ∧
        (x.up.read n).got = frame := by
  have hall := (Wire.whole_read n x.up).trans h.up
  rw [Wire.whole, List.append_assoc] at hall
  obtain ⟨m, hwants, hm, hle⟩ | hsame := hframe.progress hall
  · refine .inl ⟨by simp only [Exchange.serverRead, hwants], fun hnone => ?_⟩
    rw [hnone, List.length_nil] at hle
    omega
  · rw [hframe.complete, if_neg (by rw [hok]; decide)] at hsame
    exact .inr ⟨by simp only [Exchange.serverRead, hsame], (hframe.frame_whole hall hsame).2⟩

theorem Inv.serverRead (hframe : serverFormat.Frames frame req)
    (hok : serverFormat.accepts req.length = true) {n : Nat} (hserver : x.server = .reading) :
    Inv jsonLoadb jsonDumps snapshots frame req
      (x.serverRead jsonLoadb jsonDumps snapshots n) := by
  have hun := h.unserved hserver
  have hwhole : (x.up.read n).whole = frame := (Wire.whole_read n x.up).trans h.up
  have hquiet : ∀ b, x.cgi ≠ .finished (.response b) := fun b hb =>
    (h.response b hb).2.2.server hserver
  obtain ⟨hread, hmore⟩ | ⟨hread, hgot⟩ := h.serverRead_cases hframe hok n
  · rw [hread]
    exact ⟨hwhole, h.sending, h.sent, .inl ⟨hun.handled, hun.down, fun _ => hmore, hun.server⟩,
      h.waits, fun b hb => absurd hb (hquiet b), h.refused, h.killed⟩
  · obtain ⟨hserved, hcgi, hup, hdown, hkilled, -⟩ := sendEnvelope_served
      (x := { x with up := x.up.read n }) hgot hun.handled hun.down
    rw [hread]
    refine ⟨?_, fun hw => ?_, fun hr => ?_, .inr hserved, fun hf => ?_, fun b hb => ?_,
      fun r hr => ?_, fun hk => absurd hk hkilled⟩
    · rw [hup]
      exact hwhole
    · rw [hup]
      exact h.sending (hcgi.symm.trans hw)
    · rw [hup]
      exact h.sent (hcgi.symm.trans hr)
    · rw [hdown]
      exact ⟨4, rfl, by decide⟩
    · exact absurd (hcgi.symm.trans hb) (hquiet b)
    · exact h.refused r (hcgi.symm.trans hr)

theorem Inv.serverWrite_served {n : Nat} (hserver : x.server = .writing) :
    Served jsonLoadb jsonDumps snapshots frame req (x.serverWrite n) := by
  obtain hun | hs := h.served
  · obtain hr | hr := hun.server <;> rw [hserver] at hr <;> cases hr
  have hphase : (x.serverWrite n).server =
      if (x.serverWrite n).down.left = [] then .closed else .writing := rfl
  refine ⟨hs.got, hs.handled, (Wire.whole_write n x.down).trans hs.down, fun hr => ?_,
    fun hw hleft => ?_⟩
  · rw [hphase] at hr
    split at hr <;> cases hr
  · rw [hphase, if_pos hleft] at hw
    cases hw

theorem Inv.serverWrite {n : Nat} (hserver : x.server = .writing) (hcgi : x.isFinished = false) :
    Inv jsonLoadb jsonDumps snapshots frame req (x.serverWrite n) := by
  refine ⟨h.up, h.sending, h.sent, .inr (h.serverWrite_served hserver), h.waits, fun b hb => ?_,
    h.refused, fun hk => ?_⟩
  · have hfinished : x.cgi = .finished (.response b) := hb
    rw [isFinished, hfinished] at hcgi
    cases hcgi
  · simp only [Exchange.serverWrite] at hk
    split at hk <;> cases hk

omit h

/-! All that can happen. -/

inductive Move (jsonLoadb : List Byte → Option Value) (jsonDumps : Value → Option CString)
    (snapshots : Bool) (x : Exchange) : Event → Exchange → Prop where
  | cgiWrite {n : Nat} (hcgi : x.cgi = .writing) (hopen : x.server ≠ .closed) (hn : 0 < n)
      (hle : n ≤ x.up.left.length) :
      Move jsonLoadb jsonDumps snapshots x (.cgiWrite n) (x.cgiWrite n)
  | cgiRead {n : Nat} (hcgi : x.cgi = .reading) (hmay : mayRead cgiFormat x.down n = true) :
      Move jsonLoadb jsonDumps snapshots x (.cgiRead n) (x.cgiRead n)
  | cgiEof (hcgi : x.cgi = .reading) (hserver : x.server = .closed) (hflight : x.down.flight = []) :
      Move jsonLoadb jsonDumps snapshots x .cgiHangup { x with cgi := readFailed 502 x.down }
  | giveUp {e : Event} {status : Nat} {message : String} (hcgi : x.isFinished = false)
      (hstatus : status = 502 ∨ status = 504)
      (hwhy : e.isFault = true ∨ x.cgi = .writing ∧ x.server = .closed) :
      Move jsonLoadb jsonDumps snapshots x e { x with cgi := refuse status message }
  | serverRead {n : Nat} (hserver : x.server = .reading)
      (hmay : mayRead serverFormat x.up n = true) :
      Move jsonLoadb jsonDumps snapshots x (.serverRead n)
        (x.serverRead jsonLoadb jsonDumps snapshots n)
  | serverWrite {n : Nat} (hserver : x.server = .writing) (hcgi : x.isFinished = false) (hn : 0 < n)
      (hle : n ≤ x.down.left.length) :
      Move jsonLoadb jsonDumps snapshots x (.serverWrite n) (x.serverWrite n)
  | serverEnds {e : Event} (hserver : x.server = .reading ∨ x.server = .writing)
      (hwhy : e.isFault = true ∨ x.server = .reading ∧ x.isFinished = true) :
      Move jsonLoadb jsonDumps snapshots x e { x with server := .closed }
  | killed {out : CgiAnswer} (hcgi : x.cgi = .finished out) (hserver : x.server = .writing) :
      Move jsonLoadb jsonDumps snapshots x .serverHangup { x with server := .killed }

theorem step_move {e : Event} (hstep : step jsonLoadb jsonDumps snapshots x e = some y) :
    Move jsonLoadb jsonDumps snapshots x e y := by
  have hif : ∀ {c : Prop} [Decidable c] {z : Exchange}, (if c then some z else none) = some y →
      c ∧ z = y := by
    intro c _ z hz
    split at hz
    · exact ⟨‹c›, Option.some.inj hz⟩
    · cases hz
  have hopen : ∀ {p : CgiPhase}, x.cgi = p → (p = .writing ∨ p = .reading) →
      x.isFinished = false := by
    rintro p hp (rfl | rfl) <;> rw [isFinished, hp]
  unfold step at hstep
  split at hstep
  next hcgi =>
    obtain ⟨⟨hserver, hn, hle⟩, rfl⟩ := hif hstep
    exact .cgiWrite hcgi hserver hn hle
  next hcgi =>
    obtain ⟨hmay, rfl⟩ := hif hstep
    exact .cgiRead hcgi hmay
  next hcgi hserver =>
    cases hstep
    exact .giveUp (hopen hcgi (.inl rfl)) (.inl rfl) (.inr ⟨hcgi, hserver⟩)
  next hcgi hserver =>
    obtain ⟨hflight, rfl⟩ := hif hstep
    exact .cgiEof hcgi hserver hflight
  next hcgi =>
    cases hstep
    exact .giveUp (hopen hcgi (.inl rfl)) (.inl rfl) (.inl rfl)
  next hcgi =>
    cases hstep
    exact .giveUp (hopen hcgi (.inr rfl)) (.inl rfl) (.inl rfl)
  next hcgi =>
    cases hstep
    exact .giveUp (hopen hcgi (.inr rfl)) (.inr rfl) (.inl rfl)
  next hserver =>
    obtain ⟨hmay, rfl⟩ := hif hstep
    exact .serverRead hserver hmay
  next hserver =>
    obtain ⟨⟨hcgi, hn, hle⟩, rfl⟩ := hif hstep
    exact .serverWrite hserver hcgi hn hle
  next out hcgi hserver =>
    obtain ⟨-, rfl⟩ := hif hstep
    exact .serverEnds (.inl hserver) (.inr ⟨hserver, by rw [isFinished, hcgi]⟩)
  next out hcgi hserver =>
    cases hstep
    exact .killed hcgi hserver
  next hserver =>
    cases hstep
    exact .serverEnds (.inl hserver) (.inl rfl)
  next hserver =>
    cases hstep
    exact .serverEnds (.inr hserver) (.inl rfl)
  next => cases hstep

theorem Inv.move {e : Event} (h : Inv jsonLoadb jsonDumps snapshots frame req x)
    (hframe : serverFormat.Frames frame req) (hok : serverFormat.accepts req.length = true)
    (hmove : Move jsonLoadb jsonDumps snapshots x e y) :
    Inv jsonLoadb jsonDumps snapshots frame req y := by
  cases hmove with
  | cgiWrite hcgi => exact h.cgiWrite hcgi
  | cgiRead hcgi hmay => exact h.cgiRead hcgi hmay
  | cgiEof => exact h.giveUp (.inl rfl) _
  | giveUp _ hstatus => exact h.giveUp hstatus _
  | serverRead hserver => exact h.serverRead hframe hok hserver
  | serverWrite hserver hcgi => exact h.serverWrite hserver hcgi
  | serverEnds hserver =>
    refine h.serverEnds ?_ fun hk => by cases hk
    obtain hserver | hserver := hserver
    · exact .inl ⟨hserver, rfl⟩
    · exact .inr ⟨hserver, .inl rfl⟩
  | @killed out hcgi hserver =>
    refine h.serverEnds (.inr ⟨hserver, .inr rfl⟩) fun _ => ?_
    cases out with
    | refused r => exact ⟨r, hcgi⟩
    | response b =>
      obtain ⟨-, hleft, hs⟩ := h.response b hcgi
      exact absurd hleft (hs.sending hserver)

/-- Along a run. -/
theorem Inv.run {es : List Event} (h : Inv jsonLoadb jsonDumps snapshots frame req x)
    (hframe : serverFormat.Frames frame req) (hok : serverFormat.accepts req.length = true)
    (hrun : run jsonLoadb jsonDumps snapshots es x = some y) :
    Inv jsonLoadb jsonDumps snapshots frame req y := by
  induction es generalizing x with
  | nil =>
    cases hrun
    exact h
  | cons e es ih =>
    obtain ⟨z, hstep, hrest⟩ := Option.bind_eq_some_iff.1 hrun
    exact ih (h.move hframe hok (step_move hstep)) hrest

/-! Every run ends. -/

def cgiRest : CgiPhase → Nat
  | .writing => 2
  | .reading => 1
  | .finished _ => 0

def serverRest (n : Nat) : ServerPhase → Nat
  | .reading => 2 * n + 2
  | .writing => 1
  | _ => 0

/-- What is still to be written and read, with an answer of `n` bytes. -/
def weight (n : Nat) (x : Exchange) : Nat :=
  x.up.weight + x.down.weight + cgiRest x.cgi + serverRest n x.server

theorem Inv.weight_move {e : Event} (h : Inv jsonLoadb jsonDumps snapshots frame req x)
    (hframe : serverFormat.Frames frame req) (hok : serverFormat.accepts req.length = true)
    (hmove : Move jsonLoadb jsonDumps snapshots x e y) :
    weight ((reply jsonLoadb jsonDumps snapshots req).getD []).length y <
      weight ((reply jsonLoadb jsonDumps snapshots req).getD []).length x := by
  have hgive : ∀ {status message}, x.isFinished = false →
      cgiRest (refuse status message) < cgiRest x.cgi := by
    intro status message hopen
    cases hcgi : x.cgi with
    | finished out =>
      rw [isFinished, hcgi] at hopen
      cases hopen
    | _ => exact Nat.succ_pos _
  generalize hlen : ((reply jsonLoadb jsonDumps snapshots req).getD []).length = k
  rw [weight, weight]
  cases hmove with
  | @cgiWrite n hcgi _ hn hle =>
    have hup : (x.cgiWrite n).up.weight < x.up.weight := Wire.weight_write hn hle
    have hphase : cgiRest (x.cgiWrite n).cgi ≤ cgiRest x.cgi := by
      rw [hcgi, Exchange.cgiWrite]
      dsimp only
      split <;> decide
    exact Nat.add_lt_add_right (by
      show (x.cgiWrite n).up.weight + x.down.weight + _ < _
      omega) _
  | @cgiRead n hcgi hmay =>
    obtain ⟨hn, hle⟩ := mayRead_eq hmay
    have hdown : (x.cgiRead n).down.weight < x.down.weight := Wire.weight_read hn hle
    have hphase : cgiRest (x.cgiRead n).cgi ≤ cgiRest x.cgi := by
      rw [hcgi]
      show cgiRest (afterRead _) ≤ 1
      rw [afterRead]
      split
      · exact Nat.le_refl 1
      · exact Nat.zero_le 1
      · exact Nat.zero_le 1
    exact Nat.add_lt_add_right (by
      show x.up.weight + (x.cgiRead n).down.weight + _ < _
      omega) _
  | cgiEof hcgi =>
    exact Nat.add_lt_add_right (Nat.add_lt_add_left (hgive (by rw [isFinished, hcgi])) _) _
  | giveUp hopen => exact Nat.add_lt_add_right (Nat.add_lt_add_left (hgive hopen) _) _
  | @serverRead n hserver hmay =>
    obtain ⟨hn, hle⟩ := mayRead_eq hmay
    have hup : (x.up.read n).weight < x.up.weight := Wire.weight_read hn hle
    obtain ⟨hread, -⟩ | ⟨hread, hgot⟩ := h.serverRead_cases hframe hok n
    · rw [hread]
      dsimp only
      omega
    · have hun := h.unserved hserver
      obtain ⟨hserved, hcgi, hup', hdown, -⟩ := sendEnvelope_served
        (x := { x with up := x.up.read n }) hgot hun.handled hun.down
      have hflight := (sendEnvelope jsonDumps { x with up := x.up.read n }
        (answer jsonLoadb snapshots req)).down.weight_le
      rw [hserved.down, hlen] at hflight
      have hphase : serverRest k (sendEnvelope jsonDumps { x with up := x.up.read n }
          (answer jsonLoadb snapshots req)).server ≤ 1 := by
        have hreading := hserved.server
        cases hs : (sendEnvelope jsonDumps { x with up := x.up.read n }
            (answer jsonLoadb snapshots req)).server with
        | reading => exact absurd hs hreading
        | writing => exact Nat.le_refl 1
        | _ => exact Nat.zero_le 1
      have hbefore : serverRest k x.server = 2 * k + 2 := by rw [hserver, serverRest]
      rw [hread, hcgi, hup', hbefore]
      dsimp only
      omega
  | @serverWrite n hserver hcgi hn hle =>
    have hdown : (x.serverWrite n).down.weight < x.down.weight := Wire.weight_write hn hle
    have hphase : serverRest k (x.serverWrite n).server ≤ serverRest k x.server := by
      rw [hserver, Exchange.serverWrite]
      dsimp only
      split
      · exact Nat.zero_le 1
      · exact Nat.le_refl 1
    show x.up.weight + (x.serverWrite n).down.weight + cgiRest x.cgi + _ < _
    omega
  | serverEnds hserver =>
    refine Nat.add_lt_add_left ?_ _
    obtain hserver | hserver := hserver <;> rw [hserver] <;> exact Nat.succ_pos _
  | killed hcgi hserver =>
    refine Nat.add_lt_add_left ?_ _
    rw [hserver]
    exact Nat.succ_pos _

theorem Inv.weight_run {es : List Event} (h : Inv jsonLoadb jsonDumps snapshots frame req x)
    (hframe : serverFormat.Frames frame req) (hok : serverFormat.accepts req.length = true)
    (hrun : Exchange.run jsonLoadb jsonDumps snapshots es x = some y) :
    es.length + weight ((reply jsonLoadb jsonDumps snapshots req).getD []).length y ≤
      weight ((reply jsonLoadb jsonDumps snapshots req).getD []).length x := by
  induction es generalizing x with
  | nil =>
    cases hrun
    rw [List.length_nil, Nat.zero_add]
  | cons e es ih =>
    obtain ⟨z, hstep, hrest⟩ := Option.bind_eq_some_iff.1 hrun
    have hmove := step_move hstep
    have hless := h.weight_move hframe hok hmove
    have hall := ih (h.move hframe hok hmove) hrest
    rw [List.length_cons]
    omega

/-! Nobody waits for ever. -/

def ended (x : Exchange) : Prop :=
  x.isFinished = true ∧ (x.server = .closed ∨ x.server = .killed)

theorem mayRead_one {f : Format Byte} {w : Wire Byte} {n : Nat}
    (hwants : f.reading w.got = .wants n) (hn : 0 < n) (hflight : w.flight ≠ []) :
    mayRead f w 1 = true := by
  have hpos := List.length_pos_iff.2 hflight
  rw [mayRead, hwants]
  exact decide_eq_true ⟨Nat.one_pos, hn, hpos⟩

/-- Unless both ends are done one of them can go on, and needs no fault for that. -/
theorem Inv.goes_on (h : Inv jsonLoadb jsonDumps snapshots frame req x)
    (hframe : serverFormat.Frames frame req) (hok : serverFormat.accepts req.length = true)
    (hend : ¬ended x) :
    ∃ e, e.isFault = false ∧ (step jsonLoadb jsonDumps snapshots x e).isSome = true := by
  have hread : x.server = .reading → x.up.flight ≠ [] →
      ∃ e, e.isFault = false ∧ (step jsonLoadb jsonDumps snapshots x e).isSome = true := by
    intro hserver hflight
    have hall := h.up
    rw [Wire.whole, List.append_assoc] at hall
    obtain ⟨n, hwants, hn, -⟩ | hsame := hframe.progress hall
    · refine ⟨.serverRead 1, rfl, ?_⟩
      simp [step, hserver, mayRead_one hwants hn hflight]
    · rw [hframe.complete, if_neg (by rw [hok]; decide)] at hsame
      rw [(hframe.frame_whole hall hsame).2] at hall
      have hnone := List.append_cancel_left (hall.trans (List.append_nil frame).symm)
      exact absurd (List.append_eq_nil_iff.1 hnone).1 hflight
  cases hcgi : x.cgi with
  | writing =>
    have hleft := h.sending hcgi
    have hpos := List.length_pos_iff.2 hleft
    by_cases hserver : x.server = .closed
    · exact ⟨.cgiHangup, rfl, by simp [step, hcgi, hserver]⟩
    · exact ⟨.cgiWrite 1, rfl, by simp [step, hcgi, hserver]; omega⟩
  | reading =>
    by_cases hflight : x.down.flight = []
    · cases hserver : x.server with
      | closed => exact ⟨.cgiHangup, rfl, by simp [step, hcgi, hserver, hflight]⟩
      | reading =>
        have hmore := (h.unserved hserver).waits hserver
        rw [h.sent hcgi, List.append_nil] at hmore
        exact hread hserver hmore
      | writing =>
        obtain hun | hs := h.served
        · obtain hr | hr := hun.server <;> rw [hserver] at hr <;> cases hr
        have hpos := List.length_pos_iff.2 (hs.sending hserver)
        exact ⟨.serverWrite 1, rfl, by simp [step, hcgi, hserver, isFinished]; omega⟩
      | killed =>
        obtain ⟨r, hr⟩ := h.killed hserver
        rw [hcgi] at hr
        cases hr
    · obtain ⟨n, hwants, hn⟩ := h.waits (by rw [isFinished, hcgi])
      exact ⟨.cgiRead 1, rfl, by simp [step, hcgi, mayRead_one hwants hn hflight]⟩
  | finished out =>
    have hfinished : x.isFinished = true := by rw [isFinished, hcgi]
    cases hserver : x.server with
    | closed => exact absurd ⟨hfinished, .inl hserver⟩ hend
    | killed => exact absurd ⟨hfinished, .inr hserver⟩ hend
    | writing => exact ⟨.serverHangup, rfl, by simp [step, hcgi, hserver]⟩
    | reading =>
      by_cases hflight : x.up.flight = []
      · exact ⟨.serverHangup, rfl, by simp [step, hcgi, hserver, hflight]⟩
      · exact hread hserver hflight

/-! Without faults. -/

/-- The daemon ends when all of the answer is written, and the CGI after that. -/
structure Clean (jsonLoadb : List Byte → Option Value) (jsonDumps : Value → Option CString)
    (snapshots : Bool) (frame req : List Byte) (x : Exchange) : Prop where
  closed : x.server = .closed → Served jsonLoadb jsonDumps snapshots frame req x ∧ x.down.left = []
  finished : ∀ out, x.cgi = .finished out →
    out = outcome jsonLoadb jsonDumps snapshots req ∧ x.server = .closed
  alive : x.server ≠ .killed

theorem clean_start : Clean jsonLoadb jsonDumps snapshots frame req (start frame) where
  closed h := by cases h
  finished _ h := by cases h
  alive h := by cases h

/-- When the CGI has read to the end, it has what it is to print. -/
theorem Inv.read_outcome (h : Inv jsonLoadb jsonDumps snapshots frame req x) {n : Nat}
    (hcgi : x.cgi = .reading) (hmay : mayRead cgiFormat x.down n = true) {out : CgiAnswer}
    (hout : (x.cgiRead n).cgi = .finished out) :
    out = outcome jsonLoadb jsonDumps snapshots req ∧ x.down.left = [] ∧ x.server ≠ .reading := by
  have hy := h.cgiRead hcgi hmay
  cases out with
  | response b =>
    obtain ⟨hsame, hleft, hs⟩ := hy.response b hout
    exact ⟨hsame.symm, hleft, hs.server⟩
  | refused r =>
    obtain ⟨hs, f, text, htext, -, hall⟩ := h.reads_reply hmay
    have hphase : afterRead (x.cgiRead n).down = .finished (.refused r) := hout
    obtain ⟨hread, -⟩ | ⟨hread, hfour, hno⟩ | ⟨hread, -⟩ := afterRead_cases htext.frames hall <;>
      rw [hread] at hphase <;> cases hphase
    have hsame := htext.outcome
    rw [if_pos hno] at hsame
    refine ⟨hsame.symm, ?_, hs.server⟩
    -- a length that is not taken is zero, so there is nothing behind it
    have hzero : text.length = 0 := by
      have hnot : ¬(text.length ≠ 0 ∧ text.length ≤ CGI_ENVELOPE_MAX) := of_decide_eq_false hno
      have hmax := htext.max
      omega
    have hcount := congrArg List.length hall
    rw [List.length_append, List.length_append, htext.length, hzero] at hcount
    have hleft : (x.cgiRead n).down.left.length = 0 := by omega
    exact List.eq_nil_of_length_eq_zero hleft

theorem Clean.move {e : Event} (hc : Clean jsonLoadb jsonDumps snapshots frame req x)
    (h : Inv jsonLoadb jsonDumps snapshots frame req x)
    (hframe : serverFormat.Frames frame req) (hok : serverFormat.accepts req.length = true)
    (hfault : e.isFault = false) (hmove : Move jsonLoadb jsonDumps snapshots x e y) :
    Clean jsonLoadb jsonDumps snapshots frame req y := by
  cases hmove with
  | @cgiWrite n hcgi hopen hn hle =>
    refine ⟨fun hs => absurd hs hopen, fun out hout => ?_, hc.alive⟩
    simp only [Exchange.cgiWrite] at hout
    split at hout <;> cases hout
  | @cgiRead n hcgi hmay =>
    obtain ⟨hs, -, -, -, hwhole, -⟩ := h.reads_reply hmay
    refine ⟨fun hclosed => ⟨⟨hs.got, hs.handled, hwhole, hs.server, hs.sending⟩,
      (hc.closed hclosed).2⟩, fun out hout => ?_, hc.alive⟩
    obtain ⟨hsame, hleft, hreading⟩ := h.read_outcome hcgi hmay hout
    refine ⟨hsame, ?_⟩
    show x.server = .closed
    cases hserver : x.server with
    | reading => exact absurd hserver hreading
    | writing => exact absurd hleft (hs.sending hserver)
    | closed => rfl
    | killed => exact absurd hserver hc.alive
  | cgiEof hcgi hserver hflight =>
    obtain ⟨hs, hleft⟩ := hc.closed hserver
    refine ⟨fun _ => ⟨⟨hs.got, hs.handled, hs.down, hs.server, hs.sending⟩, hleft⟩,
      fun out hout => ⟨?_, hserver⟩, hc.alive⟩
    have hgot := hs.down
    rw [Wire.whole, hflight, hleft, List.append_nil, List.append_nil] at hgot
    obtain ⟨n, hwants, -⟩ := h.waits (by rw [isFinished, hcgi])
    cases hreply : reply jsonLoadb jsonDumps snapshots req with
    | none =>
      rw [hreply, Option.getD_none] at hgot
      cases hout
      rw [outcome_none hreply, hgot]
      rfl
    | some f =>
      obtain ⟨text, htext⟩ := reply_text hreply
      rw [hreply, Option.getD_some] at hgot
      rw [hgot, htext.frames.complete] at hwants
      split at hwants <;> cases hwants
  | giveUp hopen hstatus hwhy =>
    obtain hf | ⟨hcgi, hserver⟩ := hwhy
    · rw [hfault] at hf
      cases hf
    · have hall := h.up
      rw [Wire.whole, (hc.closed hserver).1.got, List.append_assoc] at hall
      have hnone := List.append_cancel_left (hall.trans (List.append_nil frame).symm)
      exact absurd (List.append_eq_nil_iff.1 hnone).2 (h.sending hcgi)
  | @serverRead n hserver hmay =>
    have hopen : ∀ out, x.cgi ≠ .finished out := by
      intro out hout
      have hclosed := (hc.finished out hout).2
      rw [hserver] at hclosed
      cases hclosed
    have hun := h.unserved hserver
    obtain ⟨hread, -⟩ | ⟨hread, hgot⟩ := h.serverRead_cases hframe hok n
    · rw [hread]
      refine ⟨fun hs => ?_, fun out hout => absurd hout (hopen out), hc.alive⟩
      have hclosed : x.server = .closed := hs
      rw [hserver] at hclosed
      cases hclosed
    · obtain ⟨hserved, hcgi, -, -, hkilled, hleft⟩ := sendEnvelope_served
        (x := { x with up := x.up.read n }) hgot hun.handled hun.down
      rw [hread]
      exact ⟨fun hs => ⟨hserved, hleft hs⟩,
        fun out hout => absurd (hcgi.symm.trans hout) (hopen out), hkilled⟩
  | @serverWrite n hserver hcgi hn hle =>
    refine ⟨fun hs => ⟨h.serverWrite_served hserver, ?_⟩, fun out hout => ?_, fun hk => ?_⟩
    · by_contra hleft
      have hwriting : (x.serverWrite n).server = .writing := if_neg hleft
      rw [hwriting] at hs
      cases hs
    · have hfinished : x.cgi = .finished out := hout
      rw [isFinished, hfinished] at hcgi
      cases hcgi
    · simp only [Exchange.serverWrite] at hk
      split at hk <;> cases hk
  | serverEnds hserver hwhy =>
    obtain hf | ⟨hreading, hfinished⟩ := hwhy
    · rw [hfault] at hf
      cases hf
    · rw [isFinished] at hfinished
      split at hfinished
      · rename_i out hcgi
        have hclosed := (hc.finished out hcgi).2
        rw [hreading] at hclosed
        cases hclosed
      · cases hfinished
  | killed hcgi hserver =>
    have hclosed := (hc.finished _ hcgi).2
    rw [hserver] at hclosed
    cases hclosed

theorem Clean.run {es : List Event} (hc : Clean jsonLoadb jsonDumps snapshots frame req x)
    (h : Inv jsonLoadb jsonDumps snapshots frame req x)
    (hframe : serverFormat.Frames frame req) (hok : serverFormat.accepts req.length = true)
    (hfaults : ∀ e ∈ es, e.isFault = false)
    (hrun : Exchange.run jsonLoadb jsonDumps snapshots es x = some y) :
    Clean jsonLoadb jsonDumps snapshots frame req y := by
  induction es generalizing x with
  | nil =>
    cases hrun
    exact hc
  | cons e es ih =>
    obtain ⟨z, hstep, hrest⟩ := Option.bind_eq_some_iff.1 hrun
    obtain ⟨hnow, hlater⟩ := List.forall_mem_cons.1 hfaults
    have hmove := step_move hstep
    exact ih (hc.move h hframe hok hnow hmove) (h.move hframe hok hmove) hlater hrest

end

/-! Whole requests. -/

/-- What `cgi_run` writes is one frame that the daemon accepts. -/
structure Request (frame req : List Byte) : Prop where
  frames : serverFormat.Frames frame req
  accepted : serverFormat.accepts req.length = true
  body : frame.drop 4 = req
  nonempty : frame ≠ []

theorem cgiRun_request {ulong : Nat} {opts : CgiRunOpts} {r : HttpRequest} {frame : List Byte}
    (h : cgiRun ulong opts r = .ok frame) : ∃ req, Request frame req ∧
      (answer jsonLoadb snapshots req).2 = dispatched jsonLoadb ulong opts r := by
  obtain ⟨script, -, body, op, args, -, -, -, hargs, hop, htag, hframe⟩ :=
    (cgiRun_ok_iff ulong opts r frame).1 h
  have hlt := (argsJson_eq hargs).2
  have hlen := envelope_length op args (clientTag script)
  generalize envelope op args (clientTag script) = req at hframe hlen
  have hpos : 0 < req.length := by omega
  have hmax : req.length ≤ DAEMON_OPS_MAX_FRAME_BYTES := by
    rw [ARGS_JSON_CAP] at hlt
    rw [DAEMON_OPS_MAX_FRAME_BYTES]
    omega
  refine ⟨req, ⟨⟨cgiPackLenBe req.length, hframe, rfl, ?_⟩, decide_eq_true ⟨by omega, hmax⟩, ?_,
    ?_⟩, ?_⟩
  · have hbe := getBe32_cgiPackLenBe (n := req.length)
      (by rw [DAEMON_OPS_MAX_FRAME_BYTES] at hmax; omega) []
    rwa [List.append_nil] at hbe
  · rw [hframe]
    rfl
  · rw [hframe]
    exact List.cons_ne_nil _ _
  · rw [answer_handler, dispatched, h, hframe]
    dsimp only
    rw [handleClient_cgiFrame jsonLoadb hpos hmax]

section
variable {jsonLoadb jsonDumps snapshots}
variable {ulong : Nat} {opts : CgiRunOpts} {r : HttpRequest} {frame : List Byte} {es : List Event}
variable {x : Exchange}

theorem inv_of_run (hcgi : cgiRun ulong opts r = .ok frame)
    (hrun : run jsonLoadb jsonDumps snapshots es (start frame) = some x) :
    ∃ req, Request frame req ∧ Inv jsonLoadb jsonDumps snapshots frame req x ∧
      handlers jsonLoadb snapshots req = (dispatched jsonLoadb ulong opts r).toList := by
  obtain ⟨req, hreq, hhandler⟩ := cgiRun_request jsonLoadb snapshots hcgi
  refine ⟨req, hreq, (inv_start hreq.nonempty).run hreq.frames hreq.accepted hrun, ?_⟩
  rw [handlers, hhandler]

/-- However reads, writes, hang-ups and faults are interleaved: the handler the request is for is
called once at most and no other is called; an answer with status 200 has the daemon's text byte
for byte, and the handler was called for it; the daemon is killed only if the CGI had given up. -/
theorem exchange_safe (hcgi : cgiRun ulong opts r = .ok frame)
    (hrun : run jsonLoadb jsonDumps snapshots es (start frame) = some x) :
    (x.handled = [] ∨ x.handled = (dispatched jsonLoadb ulong opts r).toList) ∧
      (∀ b, x.cgi = .finished (.response b) →
        outcome jsonLoadb jsonDumps snapshots (frame.drop 4) = .response b ∧
        x.handled = (dispatched jsonLoadb ulong opts r).toList ∧ x.server ≠ .killed) ∧
      (∀ a, x.cgi = .finished (.refused a) → a.status = 502 ∨ a.status = 504) := by
  obtain ⟨req, hreq, h, hhandlers⟩ := inv_of_run hcgi hrun
  refine ⟨?_, fun b hb => ?_, fun a ha => (h.refused a ha).2⟩
  · obtain hun | hs := h.served
    · exact .inl hun.handled
    · exact .inr (hs.handled.trans hhandlers)
  · obtain ⟨hout, -, hs⟩ := h.response b hb
    rw [hreq.body]
    refine ⟨hout, hs.handled.trans hhandlers, fun hk => ?_⟩
    obtain ⟨a, ha⟩ := h.killed hk
    rw [hb] at ha
    cases ha

/-- Every run is finite, and until both ends are done one of them can go on. Without faults it ends
with the daemon's answer printed, the handler called and the daemon alive. -/
theorem exchange_ends (hcgi : cgiRun ulong opts r = .ok frame)
    (hrun : run jsonLoadb jsonDumps snapshots es (start frame) = some x) :
    es.length ≤ 2 * frame.length +
        2 * ((reply jsonLoadb jsonDumps snapshots (frame.drop 4)).getD []).length + 4 ∧
      (ended x ∨ ∃ e, e.isFault = false ∧
        (step jsonLoadb jsonDumps snapshots x e).isSome = true) ∧
      ((∀ e ∈ es, e.isFault = false) →
        (∀ e, e.isFault = false → step jsonLoadb jsonDumps snapshots x e = none) →
        x.cgi = .finished (outcome jsonLoadb jsonDumps snapshots (frame.drop 4)) ∧
          x.server = .closed ∧ x.handled = (dispatched jsonLoadb ulong opts r).toList) := by
  obtain ⟨req, hreq, h, hhandlers⟩ := inv_of_run hcgi hrun
  have hstart : Inv jsonLoadb jsonDumps snapshots frame req (start frame) :=
    inv_start hreq.nonempty
  have hgoes : ended x ∨ ∃ e, e.isFault = false ∧
      (step jsonLoadb jsonDumps snapshots x e).isSome = true := by
    by_cases hend : ended x
    · exact .inl hend
    · exact .inr (h.goes_on hreq.frames hreq.accepted hend)
  rw [hreq.body]
  refine ⟨?_, hgoes, fun hfaults hstuck => ?_⟩
  · have hweight := hstart.weight_run hreq.frames hreq.accepted hrun
    have hfirst : weight ((reply jsonLoadb jsonDumps snapshots req).getD []).length (start frame) =
        2 * frame.length + 0 + (0 + 0) + 2 +
          (2 * ((reply jsonLoadb jsonDumps snapshots req).getD []).length + 2) := rfl
    omega
  · obtain hend | ⟨e, hfault, hstep⟩ := hgoes
    · have hclean := clean_start.run hstart hreq.frames hreq.accepted hfaults hrun
      have hfinished := hend.1
      rw [isFinished] at hfinished
      split at hfinished
      · rename_i out hout
        obtain ⟨hsame, hclosed⟩ := hclean.finished out hout
        rw [hsame] at hout
        exact ⟨hout, hclosed, (hclean.closed hclosed).1.handled.trans hhandlers⟩
      · cases hfinished
    · rw [hstuck e hfault] at hstep
      cases hstep

/-- But the deadline of the CGI alone, if it passes before the daemon answers, ends the daemon: for
every request there is such a run, and the handler has been called in it. -/
theorem late_answer_kills (hcgi : cgiRun ulong opts r = .ok frame)
    (hreply : reply jsonLoadb jsonDumps snapshots (frame.drop 4) ≠ none) :
    ∃ es x, run jsonLoadb jsonDumps snapshots es (start frame) = some x ∧
      es.filter Event.isFault = [.cgiTimesOut] ∧ x.server = .killed ∧
      x.cgi = .finished (.refused ⟨504, "EINTERNAL", "response header read failed"⟩) ∧
      x.handled = (dispatched jsonLoadb ulong opts r).toList := by
  obtain ⟨req, hreq, hhandler⟩ := cgiRun_request jsonLoadb snapshots hcgi
  rw [hreq.body] at hreply
  obtain ⟨f, hf⟩ := Option.ne_none_iff_exists'.1 hreply
  obtain ⟨hd, hsplit, hfour, -⟩ := hreq.frames
  have hfour : hd.length = 4 := hfour
  have hpos : 0 < req.length ∧ req.length ≤ DAEMON_OPS_MAX_FRAME_BYTES := by
    have hok := of_decide_eq_true hreq.accepted
    omega
  have hcount : frame.length = 4 + req.length := by rw [hsplit, List.length_append, hfour]
  let gaveUp : CgiPhase := refuse 504 "response header read failed"
  let asked : Exchange := ⟨gaveUp, .reading, ⟨[], frame, []⟩, {}, []⟩
  let half : Exchange := ⟨gaveUp, .reading, ⟨[], req, hd⟩, {}, []⟩
  let answered : Exchange := ⟨gaveUp, .writing, ⟨[], [], frame⟩, { left := f },
    handlers jsonLoadb snapshots req⟩
  have hwrite : step jsonLoadb jsonDumps snapshots (start frame) (.cgiWrite frame.length) =
      some ⟨.reading, .reading, ⟨[], frame, []⟩, {}, []⟩ := by
    have hguard : ServerPhase.reading ≠ .closed ∧ 0 < frame.length ∧
        frame.length ≤ (start frame).up.left.length := ⟨by decide, by omega, Nat.le_refl _⟩
    simp [step, start, hguard, Exchange.cgiWrite, Wire.write]
  have htime : step jsonLoadb jsonDumps snapshots
      ⟨.reading, .reading, ⟨[], frame, []⟩, {}, []⟩ .cgiTimesOut = some asked := rfl
  have hwants : serverFormat.reading hd = .wants req.length := by
    have hheader : ¬hd.length < serverFormat.header := Nat.not_lt.2 (Nat.le_of_eq hfour.symm)
    rw [hreq.frames.reading_eq hsplit.symm, if_neg hheader,
      if_neg (by rw [hreq.accepted]; decide), if_pos (by omega), hcount, hfour,
      Nat.add_sub_cancel_left]
  have hheader : step jsonLoadb jsonDumps snapshots asked (.serverRead 4) = some half := by
    have hread : asked.up.read 4 = half.up := by
      show (⟨[], frame.drop 4, [] ++ frame.take 4⟩ : Wire Byte) = ⟨[], req, hd⟩
      rw [hsplit, ← hfour, List.drop_left, List.take_left, List.nil_append]
    have hmay : mayRead serverFormat asked.up 4 = true :=
      decide_eq_true ⟨by decide, Nat.le_refl 4, by show 4 ≤ frame.length; omega⟩
    show (if mayRead serverFormat asked.up 4 = true then
      some (asked.serverRead jsonLoadb jsonDumps snapshots 4) else none) = _
    rw [if_pos hmay, Exchange.serverRead]
    simp only [hread]
    show some (match serverFormat.reading hd with
      | .wants _ => half
      | .refused => _
      | .frame body => _) = some half
    rw [hwants]
  have hbody : step jsonLoadb jsonDumps snapshots half (.serverRead req.length) =
      some answered := by
    have hread : half.up.read req.length = answered.up := by
      show (⟨[], req.drop req.length, hd ++ req.take req.length⟩ : Wire Byte) = ⟨[], [], frame⟩
      rw [List.drop_length, List.take_length, ← hsplit]
    have hmay : mayRead serverFormat half.up req.length = true := by
      show (match serverFormat.reading hd with
        | .wants m => decide (0 < req.length ∧ req.length ≤ m ∧ req.length ≤ req.length)
        | _ => false) = true
      rw [hwants]
      exact decide_eq_true ⟨hpos.1, Nat.le_refl _, Nat.le_refl _⟩
    have hwhole : serverFormat.reading answered.up.got = .frame req := by
      show serverFormat.reading frame = _
      rw [hreq.frames.complete, if_neg (by rw [hreq.accepted]; decide)]
    have hmarshal : daemonEnvelopeMarshal jsonDumps (answer jsonLoadb snapshots req).1 =
        some f := hf
    show (if mayRead serverFormat half.up req.length = true then
      some (half.serverRead jsonLoadb jsonDumps snapshots req.length) else none) = _
    rw [if_pos hmay, Exchange.serverRead]
    simp only [hread, hwhole, sendEnvelope, hmarshal]
    rfl
  refine ⟨[.cgiWrite frame.length, .cgiTimesOut, .serverRead 4, .serverRead req.length,
    .serverHangup], { answered with server := .killed }, ?_, rfl, rfl, rfl, ?_⟩
  · simp only [run, hwrite, htime, hheader, hbody, Option.bind_some]
    rfl
  · show handlers jsonLoadb snapshots req = _
    rw [handlers, hhandler]

end

/-- The op and nothing else. -/
def policyGet : HttpRequest where
  method := some (CString.of (ascii "POST"))
  query := none
  contentLength := some (CString.of (ascii "19"))
  stdin := ascii "\x7b\"op\":\"policy.get\"\x7d"

def policyGetFrame : List Byte :=
  cgiPackLenBe 72 ++
    ascii "\x7b\"op\":\"policy.get\",\"args\":\x7b\"op\":\"policy.get\"\x7d," ++
    ascii "\"client\":\"cgi:policy.cgi\"\x7d"

/-- The text of its answer. -/
def emptyAnswer : Value → Option CString := fun _ =>
  some (CString.of (ascii "\x7b\"ok\":true,\"data\":\x7b\x7d\x7d"))

theorem policyGet_sent : cgiRun 32 policyOpts policyGet = .ok policyGetFrame := by
  have hsame : (match cgiRun 32 policyOpts policyGet with
    | .ok frame => decide (frame = policyGetFrame)
    | .error _ => false) = true := by decide +kernel
  split at hsame
  · rename_i frame hframe
    rw [hframe, of_decide_eq_true hsame]
  · cases hsame

/-- Both ends in small pieces. -/
def inPieces : List Event :=
  [.cgiWrite 30, .serverRead 3, .cgiWrite 46, .serverRead 1, .serverRead 72, .serverWrite 10,
    .cgiRead 4, .serverWrite 15, .cgiRead 6, .cgiRead 15]

theorem inPieces_run : (run (load fun _ => true) emptyAnswer true inPieces
    (start policyGetFrame)).isSome = true := by decide +kernel

theorem exchange_safe_policyGet :
    ∃ x, run (load fun _ => true) emptyAnswer true inPieces (start policyGetFrame) = some x ∧
      (x.handled = [] ∨ x.handled =
        (dispatched (load fun _ => true) 32 policyOpts policyGet).toList) ∧
      (∀ b, x.cgi = .finished (.response b) →
        outcome (load fun _ => true) emptyAnswer true (policyGetFrame.drop 4) = .response b ∧
        x.handled = (dispatched (load fun _ => true) 32 policyOpts policyGet).toList ∧
        x.server ≠ .killed) ∧
      (∀ a, x.cgi = .finished (.refused a) → a.status = 502 ∨ a.status = 504) := by
  obtain ⟨x, hrun⟩ := Option.isSome_iff_exists.1 inPieces_run
  exact ⟨x, hrun, exchange_safe policyGet_sent hrun⟩

theorem exchange_ends_policyGet :
    ∃ x, run (load fun _ => true) emptyAnswer true inPieces (start policyGetFrame) = some x ∧
      (ended x ∨ ∃ e, e.isFault = false ∧
        (step (load fun _ => true) emptyAnswer true x e).isSome = true) := by
  obtain ⟨x, hrun⟩ := Option.isSome_iff_exists.1 inPieces_run
  exact ⟨x, hrun, (exchange_ends policyGet_sent hrun).2.1⟩

theorem late_answer_kills_policyGet :
    ∃ es x, run (load fun _ => true) emptyAnswer true es (start policyGetFrame) = some x ∧
      es.filter Event.isFault = [.cgiTimesOut] ∧ x.server = .killed ∧
      x.cgi = .finished (.refused ⟨504, "EINTERNAL", "response header read failed"⟩) ∧
      x.handled = (dispatched (load fun _ => true) 32 policyOpts policyGet).toList := by
  refine late_answer_kills policyGet_sent ?_
  have hsome : (reply (load fun _ => true) emptyAnswer true (policyGetFrame.drop 4)).isSome =
      true := by decide +kernel
  exact Option.isSome_iff_ne_none.1 hsome

end Exchange
end TetraBs.Webui
