import TetraBs.Lib.JsonQuote

/-! `sw/webui/cgi_common.c`: how a CGI makes the daemon's request envelope out of an HTTP
request. -/
namespace TetraBs.Webui
open TetraBs.Bits TetraBs.CStr TetraBs.JsonText

/-- What `main` of a CGI binary passes. A null pointer is `none`. -/
structure CgiRunOpts where
  scriptName : Option CString
  allowedOps : Option (List CString)
  maxBodyBytes : Nat
  fallbackOp : Option CString

/-- The environment of a CGI. `stdin` is what arrives there before the end or the deadline. -/
structure HttpRequest where
  method : Option CString
  query : Option CString
  contentLength : Option CString
  stdin : List Byte

/-- An answer that does not come from the daemon. -/
structure Refusal where
  status : Nat
  code : String
  message : String
  deriving DecidableEq

def CGI_DEFAULT_MAX_BODY : Nat := 256 * 1024

def cgiPackLenBe (len : Nat) : List Byte :=
  [BitVec.ofNat 8 (len / 2 ^ 24), BitVec.ofNat 8 (len / 2 ^ 16), BitVec.ofNat 8 (len / 2 ^ 8),
    BitVec.ofNat 8 len]

def cgiOpAllowed (opts : CgiRunOpts) (op : CString) : Bool :=
  match opts.allowedOps with
  | none => false
  | some ops => ops.any fun a => a.val = op.val

/-! The envelope. -/

def jsonEscapeFrom (cap : Nat) (out : List Byte) : List Byte → Option (List Byte)
  | [] => if cap ≤ out.length then none else some out
  | c :: t =>
    if cap ≤ out.length + (escapeByte c).length then none
    else jsonEscapeFrom cap (out ++ escapeByte c) t

/-- `json_escape` into a buffer of `cap` bytes, the last of them for the zero. -/
def jsonEscape (cap : Nat) (s : CString) : Option (List Byte) := jsonEscapeFrom cap [] s.val

def empty : CString := CString.of []

def cgiBuildRequest (outCap : Nat) (op : CString) (argsJson reqId clientTag : Option CString) :
    Option (List Byte) :=
  if outCap < 16 then none
  else
    match jsonEscape 256 op, jsonEscape 64 (reqId.getD empty),
        jsonEscape 128 (clientTag.getD (CString.of (ascii "cgi"))) with
    | some opEsc, some ridEsc, some tagEsc =>
      let args := match argsJson with
        | some a => if a.val = [] then ascii "\x7b\x7d" else a.val
        | none => ascii "\x7b\x7d"
      let rid := match reqId with
        | some r => if r.val = [] then [] else ascii ",\"req_id\":\"" ++ ridEsc ++ ascii "\""
        | none => []
      let text := ascii "\x7b\"op\":\"" ++ opEsc ++ ascii "\",\"args\":" ++ args ++ rid ++
        ascii ",\"client\":\"" ++ tagEsc ++ ascii "\"\x7d"
      if outCap ≤ text.length then none else some text
    | _, _, _ => none

/-! Query strings. -/

def urlDecodeInplace : List Byte → List Byte
  | [] => []
  | b :: h :: l :: t =>
    if b = byte '+' then 32 :: urlDecodeInplace (h :: l :: t)
    else
      match xdigit h, xdigit l with
      | some x, some y =>
        if b = byte '%' then BitVec.ofNat 8 (16 * x + y) :: urlDecodeInplace t
        else b :: urlDecodeInplace (h :: l :: t)
      | _, _ => b :: urlDecodeInplace (h :: l :: t)
  | b :: t => (if b = byte '+' then 32 else b) :: urlDecodeInplace t

theorem strchr_lt {b : Byte} {t : List Byte} {i : Nat} (h : strchr b t = some i) :
    i < t.length := (List.findIdx?_eq_some_iff_findIdx_eq.1 h).1

def qsExtract (key p : List Byte) : Option CString :=
  match strchr (byte '=') p with
  | none => none
  | some eq =>
    if eq = key.length ∧ p.take eq = key then
      let value := match strchr (byte '&') p with
        | some amp => (p.take amp).drop (eq + 1)
        | none => p.drop (eq + 1)
      some (CString.of (urlDecodeInplace value))
    else
      match h : strchr (byte '&') p with
      | none => none
      | some amp => qsExtract key (p.drop (amp + 1))
termination_by p.length
decreasing_by
  have hlt := strchr_lt h
  rw [List.length_drop]
  omega

/-- One pair of a query string, escaped. An ampersand before the equals sign makes the length of
the value wrap, and no buffer is that long. -/
def qsPair (p : List Byte) (eq : Nat) (amp : Option Nat) : Option (List Byte × List Byte) :=
  let vend := amp.getD p.length
  if 64 ≤ eq ∨ vend < eq + 1 ∨ 256 ≤ vend - (eq + 1) then none
  else
    let value := CString.of (urlDecodeInplace ((p.take vend).drop (eq + 1)))
    match jsonEscape 128 (CString.of (urlDecodeInplace (p.take eq))), jsonEscape 512 value with
    | some nameEsc, some valEsc => some (nameEsc, valEsc)
    | _, _ => none

def closeArgs (cap : Nat) (out : List Byte) : Option (List Byte) :=
  if cap < out.length + 2 then none else some (out ++ [closeBrace])

/-- The text of the pair as it is printed behind what is there. -/
def pairText (first : Bool) (m : List Byte × List Byte) : List Byte :=
  (if first then [] else [comma]) ++
    (ascii "\"" ++ m.1 ++ ascii "\":\"" ++ m.2 ++ ascii "\"")

/-- The loop of `qs_to_args_json`; `op` is filtered out. -/
def qsToArgsLoop (cap : Nat) (out : List Byte) (first : Bool) (p : List Byte) :
    Option (List Byte) :=
  match strchr (byte '=') p with
  | none => closeArgs cap out
  | some eq =>
    if eq = 2 ∧ p.take 2 = ascii "op" then
      match h : strchr (byte '&') p with
      | none => closeArgs cap out
      | some amp => qsToArgsLoop cap out first (p.drop (amp + 1))
    else
      match qsPair p eq (strchr (byte '&') p) with
      | none => none
      | some m =>
        let item := pairText first m
        if cap - out.length ≤ item.length then none
        else
          match h : strchr (byte '&') p with
          | none => closeArgs cap (out ++ item)
          | some amp => qsToArgsLoop cap (out ++ item) false (p.drop (amp + 1))
termination_by p.length
decreasing_by
  all_goals
    have hlt := strchr_lt h
    rw [List.length_drop]
    omega

def qsToArgsJson (cap : Nat) (qs : List Byte) : Option (List Byte) :=
  if cap < 3 then none else qsToArgsLoop cap [openBrace] true qs

/-! The body. -/

/-- Up to `CONTENT_LENGTH` bytes of stdin; `ulong` is the width of `unsigned long`. The error is
the `errno` value `E2BIG`, or another one. -/
def slurpStdin (ulong maxBytes : Nat) (contentLength : Option CString) (stdin : List Byte) :
    Except Bool (List Byte) :=
  match contentLength with
  | none => .ok []
  | some cl =>
    if cl.val = [] then .ok []
    else
      match strtoul ulong cl.val with
      | none => .error false
      | some want =>
        if maxBytes < want then .error true
        else if stdin.length < want then .error false
        else .ok (stdin.take want)

/-- The length of a string up to the quote that ends it, a backslash hides the next byte. -/
def stringLength : List Byte → Option Nat
  | [] => none
  | [b] => if b = quote then some 0 else none
  | b :: c :: t =>
    if b = quote then some 0
    else if b = backslash then (stringLength t).map (· + 2)
    else (stringLength (c :: t)).map (· + 1)

/-- What stands behind a matched `"op"`: no string, a string without end, or its contents. -/
inductive OpValue where
  | noString | unterminated | value (s : List Byte)

def opValue (t : List Byte) : OpValue :=
  match t.dropWhile isspace with
  | [] => .noString
  | b :: t =>
    if b ≠ colon then .noString
    else
      match t.dropWhile isspace with
      | [] => .noString
      | b :: t =>
        if b ≠ quote then .noString
        else
          match stringLength t with
          | none => .unterminated
          | some n => .value (t.take n)

/-- The scan of `json_extract_op`; `prev` is the byte before the current one. -/
def extractOpFrom (prev : Option Byte) : List Byte → Option CString
  | [] => none
  | b :: t =>
    if t.length < 4 then none
    else if (prev.all fun p => !isalnum p) ∧ ascii "\"op\"" <+: b :: t then
      match opValue (t.drop 3) with
      | .noString => extractOpFrom (some b) t
      | .unterminated => none
      | .value s => some (CString.of s)
    else extractOpFrom (some b) t

def jsonExtractOp (body : List Byte) : Option CString :=
  if body.length < 6 then none else extractOpFrom none body

/-! `cgi_run`. -/

def HttpRequest.hasBody (r : HttpRequest) : Bool :=
  let method := (r.method.getD (CString.of (ascii "GET"))).val
  method = ascii "POST" ∨ method = ascii "PUT"

def HttpRequest.qs (r : HttpRequest) : CString := r.query.getD empty

/-- The body of the request, `none` without one. -/
def requestBody (ulong : Nat) (opts : CgiRunOpts) (r : HttpRequest) :
    Except Refusal (Option (List Byte)) :=
  let maxBody := if 0 < opts.maxBodyBytes then opts.maxBodyBytes else CGI_DEFAULT_MAX_BODY
  if r.hasBody then
    match slurpStdin ulong maxBody r.contentLength r.stdin with
    | .ok b => .ok (some b)
    | .error true => .error ⟨413, "E2BIG", "stdin slurp failed"⟩
    | .error false => .error ⟨400, "EINVAL", "stdin slurp failed"⟩
  else .ok none

/-- The op of the body, else of the query, else the fallback. -/
def resolveOp (opts : CgiRunOpts) (r : HttpRequest) (body : Option (List Byte)) :
    Option CString :=
  (body.bind fun b => if b = [] then none else jsonExtractOp b)
    <|> qsExtract (ascii "op") r.qs.val <|> opts.fallbackOp

def ARGS_JSON_CAP : Nat := 2048

/-- A body that looks like an object goes on as it is, up to its first zero. -/
def argsJson (r : HttpRequest) (body : Option (List Byte)) : Except Refusal CString :=
  match body with
  | some (c :: b) =>
    let t := (c :: b).dropWhile isspace
    if t.head? = some openBrace then
      if ARGS_JSON_CAP < t.length + 1 then .error ⟨413, "E2BIG", "body too large"⟩
      else .ok (CString.of t)
    else
      match qsToArgsJson ARGS_JSON_CAP (cstr (c :: b)) with
      | none => .error ⟨413, "E2BIG", "form too large"⟩
      | some args => .ok (CString.of args)
  | _ =>
    match qsToArgsJson ARGS_JSON_CAP r.qs.val with
    | none => .error ⟨413, "E2BIG", "query too large"⟩
    | some args => .ok (CString.of args)

/-- The script name as it fits `client_tag`. -/
def clientTag (script : CString) : CString :=
  ⟨(ascii "cgi:" ++ script.val).take 63, fun h => by
    rcases List.mem_append.1 (List.mem_of_mem_take h) with h | h
    · exact absurd h (by decide)
    · exact script.property h⟩

/-- What `cgi_run` writes to the daemon's socket, or the refusal it answers with. -/
def cgiRun (ulong : Nat) (opts : CgiRunOpts) (r : HttpRequest) : Except Refusal (List Byte) :=
  match opts.scriptName, opts.allowedOps with
  | some script, some _ =>
    match requestBody ulong opts r with
    | .error e => .error e
    | .ok body =>
      match resolveOp opts r body with
      | none => .error ⟨400, "EINVAL", "missing op"⟩
      | some op =>
        if !cgiOpAllowed opts op then
          .error ⟨403, "FORBIDDEN_OP", "op not in CGI allow-list"⟩
        else
          match argsJson r body with
          | .error e => .error e
          | .ok args =>
            match cgiBuildRequest CGI_DEFAULT_MAX_BODY op (some args) none
                (some (clientTag script)) with
            | none => .error ⟨413, "E2BIG", "request too large"⟩
            | some req => .ok (cgiPackLenBe req.length ++ req)
  | _, _ => .error ⟨500, "EINTERNAL", "cgi_run: bad opts"⟩

end TetraBs.Webui
