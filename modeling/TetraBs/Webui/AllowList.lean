import TetraBs.Daemon.SocketServer
import TetraBs.Webui.Envelope

/-! What the daemon runs for a CGI, and which requests get it to run an op the CGI does not
allow. -/
namespace TetraBs.Webui
open TetraBs.Bits TetraBs.CStr TetraBs.JsonText TetraBs.SocketServer

/-- The name of the handler the daemon calls for one HTTP request; the socket works. -/
def dispatched (jsonLoadb : List Byte → Option Value) (ulong : Nat) (opts : CgiRunOpts)
    (r : HttpRequest) : Option (List Byte) :=
  match cgiRun ulong opts r with
  | .error _ => none
  | .ok frame => (socketServerHandleClient jsonLoadb frame).map (·.name)

/-- The handlers called for a sequence of requests. `main` is the CGI's own, it may look at the
request before it passes its options. -/
def dispatchLog (jsonLoadb : List Byte → Option Value) (ulong : Nat)
    (main : HttpRequest → CgiRunOpts) : List HttpRequest → List (HttpRequest × List Byte)
  | [] => []
  | r :: rs =>
    match dispatched jsonLoadb ulong (main r) r with
    | none => dispatchLog jsonLoadb ulong main rs
    | some op => (r, op) :: dispatchLog jsonLoadb ulong main rs

def OnAllowList (opts : CgiRunOpts) (op : List Byte) : Prop :=
  ∃ ops ∈ opts.allowedOps, ∃ a ∈ ops, a.val = op

theorem cgiOpAllowed_iff (opts : CgiRunOpts) (op : CString) :
    cgiOpAllowed opts op = true ↔ OnAllowList opts op.val := by
  rw [cgiOpAllowed, OnAllowList]
  cases opts.allowedOps with
  | none => simp
  | some ops => simp

/-- The part of a body that goes into the envelope as it is. -/
def splice (body : List Byte) : Option CString :=
  let t := body.dropWhile isspace
  if t.head? = some openBrace ∧ t.length < ARGS_JSON_CAP then some (CString.of t) else none

/-- The text behind `"args":` closes its own object and goes on with members of the envelope. Read
with the members in front of it left out it has an op of its own, one that the daemon has and the
CGI does not allow. The op the CGI found is allowed, is UTF-8 and fits, so the request is sent. -/
def Smuggles (fits : List Byte → Bool) (ulong : Nat) (opts : CgiRunOpts) (r : HttpRequest) :
    Prop :=
  ∃ script ∈ opts.scriptName, ∃ body, requestBody ulong opts r = .ok (some body) ∧
    ∃ args ∈ splice body, ∃ op ∈ resolveOp opts r (some body),
      OnAllowList opts op.val ∧ Utf8.Valid op.val ∧ (escape op.val).length < 256 ∧
      (escape (clientTag script).val).length < 128 ∧
      ∃ ms ∈ loadObject fits (openBrace :: behindOp args (clientTag script)), ∃ o,
        lookup ms (ascii "op") = some (.string o) ∧ o ∈ daemonOpList.map ascii ∧
        ¬ OnAllowList opts o

/-- `policy.cgi`. -/
def policyOpts : CgiRunOpts where
  scriptName := some (CString.of (ascii "policy.cgi"))
  allowedOps := some [CString.of (ascii "policy.get"), CString.of (ascii "policy.put")]
  maxBodyBytes := 0
  fallbackOp := some (CString.of (ascii "policy.get"))

/-! The frame the daemon gets. -/

theorem getBe32_cgiPackLenBe {n : Nat} (hn : n < 2 ^ 32) (t : List Byte) :
    getBe32 (cgiPackLenBe n ++ t) = n := by
  simp only [getBe32, cgiPackLenBe, List.cons_append, List.getD_cons_zero, List.getD_cons_succ,
    BitVec.toNat_ofNat]
  omega

theorem handleClient_cgiFrame (jsonLoadb : List Byte → Option Value) {req : List Byte}
    (hpos : 0 < req.length) (hmax : req.length ≤ DAEMON_OPS_MAX_FRAME_BYTES) :
    socketServerHandleClient jsonLoadb (cgiPackLenBe req.length ++ req) =
      ((jsonLoadb req).bind Value.object?).bind fun root =>
        (daemonEnvelopeParse root).bind dispatch := by
  refine handleClient_frame jsonLoadb rfl (getBe32_cgiPackLenBe ?_ req) hpos hmax
  rw [DAEMON_OPS_MAX_FRAME_BYTES] at hmax
  omega

/-- The op in front of the envelope adds itself to what the rest of the text says. -/
theorem loadObject_behindOp (fits : List Byte → Bool) (op args tag : CString) :
    loadObject fits (envelope op args tag) =
      if Utf8.Valid op.val then
        (loadObject fits (openBrace :: behindOp args tag)).map fun ms =>
          (ascii "op", .string op.val) :: ms
      else none := by
  have hvalid : Utf8.Valid (ascii "op") := by decide
  have hhead : (skipWs (behindOp args tag)).head? ≠ some closeBrace := quote_ne_close _
  rw [envelope, loadObject_cons fits (by decide) op.property hhead]
  simp only [hvalid, true_and]

theorem of_ne_nil {b : Byte} {t : List Byte} (hb : b ≠ 0) : (CString.of (b :: t)).val ≠ [] := by
  have hcons : (b :: t).takeWhile (· ≠ 0) = b :: t.takeWhile (· ≠ 0) :=
    List.takeWhile_cons_of_pos (by simpa using hb)
  change (b :: t).takeWhile (· ≠ 0) ≠ []
  rw [hcons]
  exact List.cons_ne_nil _ _

theorem of_length_le (t : List Byte) : (CString.of t).val.length ≤ t.length :=
  (List.takeWhile_sublist _).length_le

theorem splice_eq {b : List Byte} {args : CString} (h : splice b = some args) :
    args.val ≠ [] ∧ args.val.length < ARGS_JSON_CAP := by
  simp only [splice] at h
  split at h
  · rename_i hb
    cases h
    cases ht : b.dropWhile isspace with
    | nil => simp [ht] at hb
    | cons c t =>
      have hc : c = openBrace := by simpa [ht] using hb.1
      have hle := of_length_le (c :: t)
      rw [ht] at hb
      exact ⟨of_ne_nil (by rw [hc]; decide), Nat.lt_of_le_of_lt hle hb.2⟩
  · cases h

theorem isForm_eq {args : List Byte} (h : IsForm ARGS_JSON_CAP args) :
    (CString.of args).val ≠ [] ∧ (CString.of args).val.length < ARGS_JSON_CAP := by
  rw [h.of_eq]
  obtain ⟨ms, -, rfl, hlen⟩ := h
  exact ⟨List.cons_ne_nil _ _, hlen⟩

theorem argsJson_splice (r : HttpRequest) {b : List Byte} {args : CString}
    (h : splice b = some args) : argsJson r (some b) = .ok args := by
  simp only [splice] at h
  split at h
  · rename_i hb
    cases h
    cases b with
    | nil => cases hb.1
    | cons c b =>
      have hfits : ¬ ARGS_JSON_CAP < ((c :: b).dropWhile isspace).length + 1 := by omega
      simp only [argsJson, hb.1, if_true, hfits, if_false]
  · cases h

/-- The arguments are a piece of the body as it came, or an object the CGI wrote itself. -/
theorem argsJson_cases {r : HttpRequest} {body : Option (List Byte)} {args : CString}
    (h : argsJson r body = .ok args) :
    (∃ b, body = some b ∧ splice b = some args) ∨ IsForm ARGS_JSON_CAP args.val := by
  have hform {qs args' : List Byte} (hq : qsToArgsJson ARGS_JSON_CAP qs = some args') :
      IsForm ARGS_JSON_CAP (CString.of args').val := by
    have hargs := qsToArgsJson_isForm hq
    rwa [hargs.of_eq]
  unfold argsJson at h
  split at h
  · rename_i c b
    simp only at h
    split at h
    · rename_i hhead
      split at h
      · cases h
      · rename_i hlen
        cases h
        exact .inl ⟨c :: b, rfl, if_pos ⟨hhead, by omega⟩⟩
    · split at h
      · cases h
      · rename_i args' hq
        cases h
        exact .inr (hform hq)
  · split at h
    · cases h
    · rename_i args' hq
      cases h
      exact .inr (hform hq)

theorem argsJson_eq {r : HttpRequest} {body : Option (List Byte)} {args : CString}
    (h : argsJson r body = .ok args) : args.val ≠ [] ∧ args.val.length < ARGS_JSON_CAP := by
  rcases argsJson_cases h with ⟨b, -, hb⟩ | hform
  · exact splice_eq hb
  · have hargs := isForm_eq hform
    rwa [hform.of_eq] at hargs

/-- When a request is sent, and which. -/
theorem cgiRun_ok_iff (ulong : Nat) (opts : CgiRunOpts) (r : HttpRequest) (frame : List Byte) :
    cgiRun ulong opts r = .ok frame ↔
      ∃ script ∈ opts.scriptName, ∃ body op args, requestBody ulong opts r = .ok body ∧
        resolveOp opts r body = some op ∧ OnAllowList opts op.val ∧
        argsJson r body = .ok args ∧ (escape op.val).length < 256 ∧
        (escape (clientTag script).val).length < 128 ∧
        frame = cgiPackLenBe (envelope op args (clientTag script)).length ++
          envelope op args (clientTag script) := by
  constructor
  · intro h
    rw [cgiRun] at h
    split at h
    · rename_i script ops hscript hops
      split at h
      · cases h
      rename_i body hbody
      split at h
      · cases h
      rename_i op hop
      split at h
      · cases h
      rename_i hallowed
      split at h
      · cases h
      rename_i args hargs
      have hin : OnAllowList opts op.val := (cgiOpAllowed_iff opts op).1 (by simpa using hallowed)
      obtain ⟨hne, hlt⟩ := argsJson_eq hargs
      rw [cgiBuildRequest_eq hne hlt] at h
      by_cases hfits : (escape op.val).length < 256 ∧ (escape (clientTag script).val).length < 128
      · rw [if_pos hfits] at h
        cases h
        exact ⟨script, hscript, body, op, args, hbody, hop, hin, hargs, hfits.1, hfits.2, rfl⟩
      · rw [if_neg hfits] at h
        cases h
    · cases h
  · rintro ⟨script, hscript, body, op, args, hbody, hop, hin, hargs, hopEsc, htag, rfl⟩
    have hallowed := (cgiOpAllowed_iff opts op).2 hin
    obtain ⟨ops, hops, -⟩ := hin
    obtain ⟨hne, hlt⟩ := argsJson_eq hargs
    rw [Option.mem_def] at hscript hops
    rw [cgiRun, hscript, hops, hbody]
    simp only [hop, hallowed, hargs, cgiBuildRequest_eq hne hlt, hopEsc, htag, and_self, if_true]
    rfl

/-- An object the CGI wrote itself ends where it should, and nothing behind it is an op. -/
theorem behindOp_form {fits : List Byte → Bool} {cap : Nat} {args tag : CString} {ms : Members}
    (hform : IsForm cap args.val) (h : loadObject fits (openBrace :: behindOp args tag) = some ms) :
    lookup ms (ascii "op") = none := by
  obtain ⟨ps, hps, hargs, -⟩ := hform
  have hparse : objectTail fits (behindOp args tag) =
      some [(ascii "args", .object (strings ps)), (ascii "client", .string tag.val)] := by
    have hargsText : behindOp args tag = memberText (ascii "args")
        (openBrace :: (stringsText ps ++ closeBrace :: [])) ++
          comma :: (memberText (ascii "client") (quoted tag.val) ++ [closeBrace]) := by
      rw [behindOp, hargs]
    have hcount : ps.length + 2 ≤ (behindOp args tag).length := by
      have hle := length_le_stringsText ps
      rw [hargsText]
      simp only [memberText, List.length_append, List.length_cons]
      omega
    generalize hn : (behindOp args tag).length = n at hcount
    obtain ⟨d, rfl⟩ : ∃ d, n = d + 2 := ⟨n - 2, by omega⟩
    have hfirst : readMember (readValue fits (d + 2 + 1)) (behindOp args tag) =
        some ((ascii "args", .object (strings ps)),
          comma :: (memberText (ascii "client") (quoted tag.val) ++ [closeBrace])) := by
      rw [hargsText, readMember_memberText _ (by decide), List.cons_append, List.append_assoc,
        List.cons_append, List.nil_append, readValue_strings fits (by omega) hps]
      rfl
    have hsecond : readMember (readValue fits (d + 2 + 1))
        (memberText (ascii "client") (quoted tag.val) ++ [closeBrace]) =
        some ((ascii "client", .string tag.val), [closeBrace]) := by
      rw [readMember_memberText _ (by decide), readValue_quoted fits _ tag.property]
      rfl
    have hbracketed : bracketed (readMember (readValue fits (d + 2 + 1))) closeBrace (d + 2 + 1)
        (memberText (ascii "args") args.val ++
          comma :: (memberText (ascii "client") (quoted tag.val) ++ [closeBrace])) =
        sepBy (readMember (readValue fits (d + 2 + 1))) closeBrace (d + 2 + 1)
          (memberText (ascii "args") args.val ++
            comma :: (memberText (ascii "client") (quoted tag.val) ++ [closeBrace])) :=
      bracketed_memberText _ _
    rw [objectTail, hn, behindOp, hbracketed, ← behindOp, sepBy_next hfirst, sepBy_last hsecond]
    rfl
  rw [loadObject_brace, hparse] at h
  split at h
  · cases h
    rfl
  · cases h

theorem mem_dispatchLog {jsonLoadb : List Byte → Option Value} {ulong : Nat}
    {main : HttpRequest → CgiRunOpts} {rs : List HttpRequest} {r : HttpRequest} {op : List Byte} :
    (r, op) ∈ dispatchLog jsonLoadb ulong main rs ↔
      r ∈ rs ∧ dispatched jsonLoadb ulong (main r) r = some op := by
  induction rs with
  | nil => simp [dispatchLog]
  | cons r' rs ih =>
    rw [dispatchLog, List.mem_cons]
    cases hd : dispatched jsonLoadb ulong (main r') r' with
    | none =>
      rw [ih]
      constructor
      · rintro ⟨hr, h⟩
        exact ⟨.inr hr, h⟩
      · rintro ⟨rfl | hr, h⟩
        · rw [hd] at h
          cases h
        · exact ⟨hr, h⟩
    | some op' =>
      rw [List.mem_cons, ih]
      constructor
      · rintro (h | ⟨hr, h⟩)
        · cases h
          exact ⟨.inl rfl, hd⟩
        · exact ⟨.inr hr, h⟩
      · rintro ⟨rfl | hr, h⟩
        · rw [hd] at h
          cases h
          exact .inl rfl
        · exact .inr ⟨hr, h⟩

-- The parser is jansson's. It stops at a nesting that no text of this length reaches.
section Reader
variable {jsonLoadb : List Byte → Option Value} {fits : List Byte → Bool}
variable (hload : ∀ t, t.length ≤ 4096 → jsonLoadb t = load fits t)
include hload

/-- What the daemon makes of an envelope: the last op decides. -/
theorem handleClient_envelope {op args tag : CString} (hargs : args.val.length < ARGS_JSON_CAP)
    (hop : (escape op.val).length < 256) (htag : (escape tag.val).length < 128) (o : List Byte) :
    (socketServerHandleClient jsonLoadb (cgiPackLenBe (envelope op args tag).length ++
        envelope op args tag)).map (·.name) = some o ↔
      ∃ ms, loadObject fits (envelope op args tag) = some ms ∧
        lookup ms (ascii "op") = some (.string o) ∧ o ∈ daemonOpList.map ascii := by
  have hlen : (envelope op args tag).length ≤ 4096 := by
    rw [envelope_length]
    rw [ARGS_JSON_CAP] at hargs
    omega
  have hpos : 0 < (envelope op args tag).length := by
    rw [envelope_length]
    omega
  rw [handleClient_cgiFrame jsonLoadb hpos (hlen.trans (by decide)), hload _ hlen, ← loadObject]
  cases loadObject fits (envelope op args tag) with
  | none => simp
  | some ms => simp only [Option.bind_some, parse_dispatch_iff, Option.some.injEq, exists_eq_left']

/-- An op that is not allowed is dispatched for the requests that smuggle one, and only for them. -/
theorem dispatched_outside_iff (ulong : Nat) (opts : CgiRunOpts) (r : HttpRequest) :
    (∃ o, dispatched jsonLoadb ulong opts r = some o ∧ ¬ OnAllowList opts o) ↔
      Smuggles fits ulong opts r := by
  constructor
  · rintro ⟨o, ho, hout⟩
    rw [dispatched] at ho
    split at ho
    · cases ho
    rename_i frame hframe
    obtain ⟨script, hscript, body, op, args, hbody, hop, hin, hargs, hopEsc, htag, rfl⟩ :=
      (cgiRun_ok_iff ulong opts r frame).1 hframe
    rw [handleClient_envelope hload (argsJson_eq hargs).2 hopEsc htag] at ho
    obtain ⟨ms, hms, hlast, htable⟩ := ho
    rw [loadObject_behindOp] at hms
    split at hms
    swap
    · cases hms
    rename_i hvalid
    obtain ⟨ms', hms', rfl⟩ := Option.map_eq_some_iff.1 hms
    rw [lookup_cons, if_pos rfl] at hlast
    rcases argsJson_cases hargs with ⟨b, rfl, hb⟩ | hform
    · refine ⟨script, hscript, b, hbody, args, hb, op, hop, hin, hvalid, hopEsc, htag, ms', hms', o,
        ?_, htable, hout⟩
      rcases Option.or_eq_some_iff.1 hlast with hlast | ⟨-, hlast⟩
      · exact hlast
      · cases hlast
        exact absurd hin hout
    · rw [behindOp_form hform hms', Option.none_or] at hlast
      cases hlast
      exact absurd hin hout
  · rintro ⟨script, hscript, body, hbody, args, hargs, op, hop, hin, hvalid, hopEsc, htag, ms, hms,
      o, hlast, htable, hout⟩
    have hsent := (cgiRun_ok_iff ulong opts r _).2 ⟨script, hscript, some body, op, args, hbody,
      hop, hin, argsJson_splice r hargs, hopEsc, htag, rfl⟩
    refine ⟨o, ?_, hout⟩
    rw [dispatched, hsent]
    refine (handleClient_envelope hload (splice_eq hargs).2 hopEsc htag o).2
      ⟨(ascii "op", .string op.val) :: ms, ?_, ?_, htable⟩
    · rw [loadObject_behindOp, if_pos hvalid, hms]
      rfl
    · rw [lookup_cons, hlast, Option.some_or]

/-- Of the handlers called for a sequence of requests all are on the allow-list of the CGI, if and
only if no request smuggles an op. -/
theorem dispatches_allowed_iff (ulong : Nat) (main : HttpRequest → CgiRunOpts)
    (rs : List HttpRequest) :
    (∀ d ∈ dispatchLog jsonLoadb ulong main rs, OnAllowList (main d.1) d.2) ↔
      ∀ r ∈ rs, ¬ Smuggles fits ulong (main r) r := by
  constructor
  · intro h r hr hsmuggles
    obtain ⟨o, ho, hout⟩ := (dispatched_outside_iff hload ulong (main r) r).2 hsmuggles
    exact hout (h (r, o) (mem_dispatchLog.2 ⟨hr, ho⟩))
  · rintro h ⟨r, o⟩ hd
    obtain ⟨hr, ho⟩ := mem_dispatchLog.1 hd
    by_contra hout
    exact h r hr ((dispatched_outside_iff hload ulong (main r) r).1 ⟨o, ho, hout⟩)

end Reader

/-- A body that closes its object and goes on with a second op. -/
def stopRequest : HttpRequest where
  method := some (CString.of (ascii "POST"))
  query := none
  contentLength := some (CString.of (ascii "38"))
  stdin := ascii "\x7b\"op\":\"policy.get\"\x7d,\"op\":\"daemon.stop\""

theorem stopRequest_dispatched :
    dispatched (load fun _ => true) 32 policyOpts stopRequest = some (ascii "daemon.stop") := by
  decide +kernel

theorem policy_stop_not_allowed : ¬ OnAllowList policyOpts (ascii "daemon.stop") := by
  have hallowed : cgiOpAllowed policyOpts (CString.of (ascii "daemon.stop")) = false := by
    decide +kernel
  have hval : (CString.of (ascii "daemon.stop")).val = ascii "daemon.stop" := by decide +kernel
  rw [← hval, ← cgiOpAllowed_iff, hallowed]
  exact Bool.false_ne_true

theorem policy_stops_daemon :
    ¬ ∀ d ∈ dispatchLog (load fun _ => true) 32 (fun _ => policyOpts) [stopRequest],
      OnAllowList policyOpts d.2 := fun h =>
  policy_stop_not_allowed (h (stopRequest, ascii "daemon.stop")
    (mem_dispatchLog.2 ⟨List.mem_singleton.2 rfl, stopRequest_dispatched⟩))

theorem stopRequest_smuggles : Smuggles (fun _ => true) 32 policyOpts stopRequest := by
  by_contra hnone
  have hload : ∀ t : List Byte, t.length ≤ 4096 →
      load (fun _ => true) t = load (fun _ => true) t := fun _ _ => rfl
  have hall := (dispatches_allowed_iff hload 32 (fun _ => policyOpts) [stopRequest]).2 fun r hr => by
    rw [List.mem_singleton.1 hr]
    exact hnone
  exact policy_stop_not_allowed (hall (stopRequest, ascii "daemon.stop")
    (mem_dispatchLog.2 ⟨List.mem_singleton.2 rfl, stopRequest_dispatched⟩))

end TetraBs.Webui
