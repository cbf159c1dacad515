import Ningshi.Daemon

/-!
# `socket.rs` and the command line

A client sends one request as JSON and waits for the response; the daemon reads
once, carries the request out between two ticks and answers.  Requests and
responses carry a protocol version, and the daemon refuses one it does not know.

`handle_request` says what a request of any kind does to the daemon, and
`main_faithful` that the command line tells the truth: called with a command, it exits
with 0 only when what it was called for has succeeded, wherever the connection breaks.
Any other word starts the daemon.
-/

namespace Ningshi

open Std JsonDoc Transition

def protocolVersion : UInt32 := 2

/-- `CARGO_PKG_VERSION` -/
def packageVersion : String := "0.4.4"

structure Request where
  /-- 0 is a client from before versioning -/
  v : UInt32
  cmd : String
  key : Option String
  minutes : Option UInt32
  path : Option String
  deriving DecidableEq

structure Response where
  v : UInt32
  ok : Bool
  error : Option String
  data : Value

/-! ## The messages -/

def Request.toJson (req : Request) : Value :=
  .obj [("v", u32Value req.v), ("cmd", .str req.cmd), ("key", ofOption .str req.key),
    ("minutes", ofOption u32Value req.minutes), ("path", ofOption .str req.path)]

def Request.ofJson (v : Value) : Option Request := do
  let ms ← structMembers ["v", "cmd", "key", "minutes", "path"] v
  let version ← fieldOr ms "v" asU32 0
  let cmd ← field ms "cmd" asStr
  let key ← fieldOr ms "key" (asOption asStr) none
  let minutes ← fieldOr ms "minutes" (asOption asU32) none
  let path ← fieldOr ms "path" (asOption asStr) none
  pure ⟨version, cmd, key, minutes, path⟩

def Response.toJson (resp : Response) : Value :=
  .obj [("v", u32Value resp.v), ("ok", .bool resp.ok), ("error", ofOption .str resp.error),
    ("data", resp.data)]

def Response.ofJson (v : Value) : Option Response := do
  let ms ← structMembers ["v", "ok", "error", "data"] v
  let version ← fieldOr ms "v" asU32 0
  let ok ← field ms "ok" asBool
  let error ← fieldOr ms "error" (asOption asStr) none
  let data ← fieldOr ms "data" some .null
  pure ⟨version, ok, error, data⟩

theorem asOption_str (o : Option String) : asOption asStr (ofOption .str o) = some o :=
  asOption_ofOption asStr_str (by simp) o

theorem asOption_u32 (o : Option UInt32) : asOption asU32 (ofOption u32Value o) = some o :=
  asOption_ofOption asU32_toNat (by simp) o

/-- **A request is read as it was written.** -/
theorem Request.ofJson_toJson (req : Request) : Request.ofJson req.toJson = some req := by
  simp [Request.ofJson, Request.toJson, structMembers, fieldOr, field, asOption_str, asOption_u32,
    u32Value]

/-- **A response is read as it was written.** -/
theorem Response.ofJson_toJson (resp : Response) : Response.ofJson resp.toJson = some resp := by
  simp [Response.ofJson, Response.toJson, structMembers, fieldOr, field, asOption_str, u32Value]

/-! ## The daemon -/

def RulesSource.asStr : RulesSource → String
  | .file => "file"
  | .backup => "backup"
  | .default => "default"

/-- The status snapshot, with the members in the order they are written in.
`health` is what the gate reports. -/
def Engine.status (health : Value) (epoch : Nat) (eng : Engine) : Value :=
  .obj [("app_count", natValue eng.rules.apps.size),
    ("blocked_uids", .arr (eng.blocked.toList.map u32Value)),
    ("extensions", ofUidMap natValue eng.extensionUntil),
    ("gate", health),
    ("group_count", natValue eng.rules.groups.size),
    ("group_extensions", ofKeyMap natValue eng.groupExtensionUntil),
    ("interval", natValue eng.lastInterval),
    ("kill_counts", ofUidMap natValue eng.killCount),
    ("last_tick_age", natValue (epoch - eng.lastTick.getD epoch)),
    ("protected", .arr (eng.protectedPkgs.toList.map Value.str)),
    ("rules_ok", .bool (eng.rulesSource = .file)),
    ("rules_source", .str eng.rulesSource.asStr),
    ("screen_off", ofOption .bool eng.screenOff),
    ("uptime", natValue (epoch - eng.started)),
    ("usage_fg_seconds", ofUidMap natValue eng.usageFg),
    ("usage_seconds", ofUidMap natValue eng.usageSeconds),
    ("version", .str packageVersion)]

/-- What one connection meets. -/
structure Conn where
  env : Env
  /-- what the one read returns, if anything -/
  received : Option Text
  /-- the files an apply can be asked to read -/
  readFile : String → Option Text
  /-- the text of an error of the system or of the parser -/
  osError : String
  health : Value

/-- What handling a connection leads to. -/
structure Served where
  /-- what is written back -/
  response : Option Response
  sys : Sys
  /-- does the main loop have to tick? -/
  changed : Bool

def okResp (data : Value) : Response := ⟨protocolVersion, true, none, data⟩

def errResp (msg : String) : Response := ⟨protocolVersion, false, some msg, .obj []⟩

/-- What an apply that fails says. -/
def applyError (c : Conn) (src : String) (s : Sys) : String :=
  match c.readFile src with
  | none => "cannot read " ++ src ++ ": " ++ c.osError
  | some text =>
      match Rules.fromStr text with
      | none => "invalid rules: " ++ c.osError
      | some rules =>
          if rulesVersionMax < rules.version then
            "rules version " ++ toString rules.version.toNat ++
              " is newer than this module supports (" ++ toString rulesVersionMax.toNat ++ ")"
          else if c.env.fails .writeRules then c.osError
          else if (reload c.env (s.writeRules c.env rules)).isOk then
            "rules were replaced but could not be read back"
          else c.osError

/-- Carry out a request of a known version. -/
def dispatch (c : Conn) (req : Request) (s : Sys) : Served :=
  if req.cmd = "reload" then
    match reload c.env s with
    | .ok s => ⟨some (okResp (.obj [])), s, true⟩
    | .err s => ⟨some (errResp c.osError), s, false⟩
  else if req.cmd = "status" then ⟨some (okResp (s.eng.status c.health c.env.epoch)), s, false⟩
  else if req.cmd = "extension" then
    match s.eng.addExtension c.env (req.key.getD "") (req.minutes.getD 5) with
    | .ok (mins, eng) =>
        ⟨some (okResp (.obj [("minutes", u32Value mins)])), { s with eng := eng }, true⟩
    | .error e => ⟨some (errResp e), s, false⟩
  else if req.cmd = "apply" then
    let path := req.path.getD ""
    if path = "" then ⟨some (errResp "apply needs a file path"), s, false⟩
    else
      match applyRulesFile c.env (c.readFile path) s with
      | .ok s => ⟨some (okResp (.obj [("apps", natValue s.eng.rules.apps.size),
          ("rules_source", .str "file")])), s, true⟩
      | .err s' => ⟨some (errResp (applyError c path s)), s', false⟩
  else ⟨some (errResp ("unknown cmd: " ++ req.cmd)), s, false⟩

/-- `handle` -/
def handle (c : Conn) (s : Sys) : Served :=
  match c.received with
  -- the client sends nothing, or the read times out
  | none => ⟨none, s, false⟩
  | some text =>
      match text.decode Request.ofJson with
      | none => ⟨some (errResp c.osError), s, false⟩
      | some req =>
          if req.v ≠ 0 ∧ req.v ≠ protocolVersion then
            ⟨some (errResp ("protocol v" ++ toString req.v.toNat ++
              " is not supported by this daemon (v" ++ toString protocolVersion.toNat ++
              "); reinstall the module")), s, false⟩
          else dispatch c req s

/-! ## What a request does -/

/-- The daemon speaks the version of the request. -/
def Request.Spoken (req : Request) : Prop := req.v = 0 ∨ req.v = protocolVersion

/-- The operation a request asks for. -/
def Request.asks (c : Conn) (req : Request) : Option Op :=
  if req.cmd = "reload" then some (.reload c.env)
  else if req.cmd = "extension" then
    some (.extension c.env (req.key.getD "") (req.minutes.getD 5))
  else if req.cmd = "apply" ∧ req.path.getD "" ≠ "" then
    some (.apply c.env (c.readFile (req.path.getD "")))
  else none

/-- The operation is carried out and the response tells how it ended. -/
structure CarriesOut (op : Op) (s : Sys) (served : Served) : Prop where
  sys : served.sys = op.perform s
  changed : served.changed = (op.outcome s).isOk
  response : ∃ resp, served.response = some resp ∧ resp.ok = (op.outcome s).isOk

/-- Nothing is carried out. -/
structure Leaves (ok : Bool) (s : Sys) (served : Served) : Prop where
  sys : served.sys = s
  changed : served.changed = false
  response : ∃ resp, served.response = some resp ∧ resp.ok = ok

theorem carriesOut_dispatch {c : Conn} {req : Request} {s : Sys} {op : Op}
    (h : req.asks c = some op) : CarriesOut op s (dispatch c req s) := by
  unfold Request.asks at h
  split_ifs at h with hreload hextension happly
  · obtain rfl := Option.some.inj h
    rw [dispatch, if_pos hreload]
    cases hop : reload c.env s with
    | ok s' => exact ⟨by simp [Op.perform, Op.outcome, hop], by simp [Op.outcome, hop], _, rfl,
        by simp [Op.outcome, hop, okResp]⟩
    | err s' => exact ⟨by simp [Op.perform, Op.outcome, hop], by simp [Op.outcome, hop], _, rfl,
        by simp [Op.outcome, hop, errResp]⟩
  · obtain rfl := Option.some.inj h
    have hstatus : req.cmd ≠ "status" := by rw [hextension]; decide
    rw [dispatch, if_neg hreload, if_neg hstatus, if_pos hextension]
    cases hop : s.eng.addExtension c.env (req.key.getD "") (req.minutes.getD 5) with
    | ok result => exact ⟨by simp [Op.perform, Op.outcome, hop], by simp [Op.outcome, hop], _, rfl,
        by simp [Op.outcome, hop, okResp]⟩
    | error e => exact ⟨by simp [Op.perform, Op.outcome, hop], by simp [Op.outcome, hop], _, rfl,
        by simp [Op.outcome, hop, errResp]⟩
  · obtain rfl := Option.some.inj h
    have hstatus : req.cmd ≠ "status" := by rw [happly.1]; decide
    rw [dispatch, if_neg hreload, if_neg hstatus, if_neg hextension, if_pos happly.1]
    simp only [if_neg happly.2]
    cases hop : applyRulesFile c.env (c.readFile (req.path.getD "")) s with
    | ok s' => exact ⟨by simp [Op.perform, Op.outcome, hop], by simp [Op.outcome, hop], _, rfl,
        by simp [Op.outcome, hop, okResp]⟩
    | err s' => exact ⟨by simp [Op.perform, Op.outcome, hop], by simp [Op.outcome, hop], _, rfl,
        by simp [Op.outcome, hop, errResp]⟩

theorem dispatch_leaves {c : Conn} {req : Request} {s : Sys} (h : req.asks c = none) :
    Leaves (req.cmd = "status") s (dispatch c req s) := by
  unfold Request.asks at h
  split_ifs at h with hreload hextension happly
  rw [dispatch, if_neg hreload]
  by_cases hstatus : req.cmd = "status"
  · rw [if_pos hstatus]
    exact ⟨rfl, rfl, _, rfl, by simp [okResp, hstatus]⟩
  rw [if_neg hstatus, if_neg hextension]
  by_cases hcmd : req.cmd = "apply"
  · have hpath : req.path.getD "" = "" := by
      by_contra hne
      exact happly ⟨hcmd, hne⟩
    rw [if_pos hcmd]
    simp only [if_pos hpath]
    exact ⟨rfl, rfl, _, rfl, by simp [errResp, hstatus]⟩
  · rw [if_neg hcmd]
    exact ⟨rfl, rfl, _, rfl, by simp [errResp, hstatus]⟩

/-- **What a connection does to the daemon.**  Bytes that are no request and
requests of another version leave it alone, so do status requests; any other
request carries out the operation it asks for. -/
theorem handle_request (c : Conn) (s : Sys) :
    (c.received.bind (Text.decode Request.ofJson) = none →
      (handle c s).sys = s ∧ (handle c s).changed = false) ∧
    ∀ req, c.received.bind (Text.decode Request.ofJson) = some req →
      (¬ req.Spoken → Leaves false s (handle c s)) ∧
      (req.Spoken → ∀ op, req.asks c = some op → CarriesOut op s (handle c s)) ∧
      (req.Spoken → req.asks c = none → Leaves (req.cmd = "status") s (handle c s)) := by
  refine ⟨fun hnone => ?_, fun req hreq => ?_⟩
  · rw [handle]
    cases hreceived : c.received with
    | none => exact ⟨rfl, rfl⟩
    | some text =>
        rw [hreceived, Option.bind_some] at hnone
        simp only [hnone]
        exact ⟨trivial, trivial⟩
  · obtain ⟨text, hreceived, hparse⟩ := Option.bind_eq_some_iff.mp hreq
    have hspoken : req.Spoken → ¬ (req.v ≠ 0 ∧ req.v ≠ protocolVersion) := by
      rintro (h | h) ⟨hzero, hversion⟩
      · exact hzero h
      · exact hversion h
    have hdispatch (h : req.Spoken) : handle c s = dispatch c req s := by
      simp only [handle, hreceived, hparse, if_neg (hspoken h)]
    refine ⟨fun hunknown => ?_, fun h op hop => ?_, fun h hop => ?_⟩
    · have hversion : req.v ≠ 0 ∧ req.v ≠ protocolVersion := not_or.mp hunknown
      simp only [handle, hreceived, hparse, if_pos hversion]
      exact ⟨rfl, rfl, _, rfl, rfl⟩
    · rw [hdispatch h]
      exact carriesOut_dispatch hop
    · rw [hdispatch h]
      exact dispatch_leaves hop

/-! ## The command line -/

/-- The request of a command line; a number of minutes that is none is left out. -/
def cliRequest (cmd : String) (args : List String) : Request where
  v := protocolVersion
  cmd := cmd
  key := if cmd = "extension" then args[0]? else none
  minutes :=
    if cmd = "extension" then
      (args[1]?.bind fun arg => RustStr.parseUnsigned (2 ^ 32) arg.toList).map UInt32.ofNat
    else none
  path := if cmd = "apply" then args[0]? else none

/-- How a client ends. -/
structure CliResult where
  exit : Nat
  /-- what is printed, and the error -/
  printed : Option Value
  error : Option String
  /-- the daemon has been built from another version -/
  warned : Option String

/-- The member of an object that has this name. -/
def memberStr (name : String) : Value → Option String
  | .obj members => (members.find? fun m => m.1 == name).bind fun m => asStr m.2
  | _ => none

/-- What the client makes of the reply; there is none when the daemon does not run. -/
def cliResult (reply : Option Text) : CliResult :=
  match reply.bind (Text.decode Response.ofJson) with
  | none => ⟨1, none, none, none⟩
  | some resp =>
      if resp.ok then
        ⟨0, some resp.data, none, (memberStr "version" resp.data).filter (· ≠ packageVersion)⟩
      else ⟨1, some resp.data, resp.error, none⟩

/-- How much of a message arrives. -/
inductive Arrival where
  | whole
  /-- a part of it, which is no JSON document -/
  | torn (part : String)
  | lost
  deriving DecidableEq

def Arrival.text (v : Value) : Arrival → Option Text
  | whole => some (.json v)
  | torn part => some (.other part)
  | lost => none

/-- The connection of a client.  It is lost at once when no daemon listens, and the
daemon reads only once. -/
structure Link where
  request : Arrival
  response : Arrival
  deriving DecidableEq

/-- `cli`, which `main` calls for the client commands. -/
def cli (link : Link) (c : Conn) (cmd : String) (args : List String) (s : Sys) :
    CliResult × Served :=
  let served := handle { c with received := link.request.text (cliRequest cmd args).toJson } s
  (cliResult (served.response.bind fun resp => link.response.text resp.toJson), served)

/-- The operation a command line is about. -/
def cliOp (c : Conn) (cmd : String) (args : List String) : Option Op :=
  (cliRequest cmd args).asks c

/-- A reply is understood as it was sent, and nothing else is taken for success. -/
theorem cliResult_exit (resp : Response) (arrival : Arrival) :
    (cliResult (arrival.text resp.toJson)).exit = 0 ↔ arrival = .whole ∧ resp.ok = true := by
  cases arrival with
  | whole =>
      rw [Arrival.text, cliResult, Option.bind_some, Text.decode_json, Response.ofJson_toJson]
      dsimp only
      split_ifs with hok <;> simp [hok]
  | torn part => simp [Arrival.text, cliResult, Text.decode]
  | lost => simp [Arrival.text, cliResult]

section Cli

variable {link : Link} {response : Arrival} {c : Conn} {cmd : String} {args : List String} {s : Sys}

theorem cli_exit {resp : Response} (h : (cli link c cmd args s).2.response = some resp) :
    (cli link c cmd args s).1.exit = 0 ↔ link.response = .whole ∧ resp.ok = true := by
  have hserved : (cli link c cmd args s).1 = cliResult
      ((cli link c cmd args s).2.response.bind fun resp => link.response.text resp.toJson) := rfl
  rw [hserved, h, Option.bind_some]
  exact cliResult_exit resp link.response

/-- A request that does not arrive leaves the daemon alone, and does not end well. -/
theorem cli_of_not_arrived (h : link.request ≠ .whole) :
    (cli link c cmd args s).1.exit ≠ 0 ∧ (cli link c cmd args s).2.sys = s ∧
      (cli link c cmd args s).2.changed = false := by
  obtain ⟨request, response⟩ := link
  cases request with
  | whole => exact absurd rfl h
  | torn part =>
      refine ⟨fun hexit => ?_, rfl, rfl⟩
      have hrefused : (cli ⟨.torn part, response⟩ c cmd args s).2.response =
          some (errResp c.osError) := rfl
      cases ((cli_exit hrefused).mp hexit).2
  | lost => exact ⟨Nat.one_ne_zero, rfl, rfl⟩

theorem carriesOut_cli {op : Op} (hop : cliOp c cmd args = some op) :
    CarriesOut op s (cli ⟨.whole, response⟩ c cmd args s).2 := by
  obtain ⟨-, hrequest⟩ :=
    handle_request { c with received := some (.json (cliRequest cmd args).toJson) } s
  exact (hrequest (cliRequest cmd args) (by
    rw [Option.bind_some, Text.decode_json, Request.ofJson_toJson])).2.1 (.inr rfl) op hop

theorem leaves_cli (hop : cliOp c cmd args = none) :
    Leaves (cmd = "status") s (cli ⟨.whole, response⟩ c cmd args s).2 := by
  obtain ⟨-, hrequest⟩ :=
    handle_request { c with received := some (.json (cliRequest cmd args).toJson) } s
  exact (hrequest (cliRequest cmd args) (by
    rw [Option.bind_some, Text.decode_json, Request.ofJson_toJson])).2.2 (.inr rfl) hop

theorem ne_status_of_cliOp {op : Op} (hop : cliOp c cmd args = some op) : cmd ≠ "status" := by
  rintro rfl
  simp [cliOp, Request.asks, cliRequest] at hop

end Cli

/-- A client exits with 0 exactly when the request and the response have arrived and it
asks for the status or its operation has succeeded; the daemon carries the operation out
exactly when the request has arrived, and ticks at once if it succeeded. -/
theorem cli_faithful (link : Link) (c : Conn) (cmd : String) (args : List String) (s : Sys) :
    ((cli link c cmd args s).1.exit = 0 ↔ link = ⟨.whole, .whole⟩ ∧
      (cmd = "status" ∨ ∃ op, cliOp c cmd args = some op ∧ (op.outcome s).isOk = true)) ∧
    (cli link c cmd args s).2.sys =
      (if link.request = .whole then ((cliOp c cmd args).map fun op => op.perform s).getD s
        else s) ∧
    ((cli link c cmd args s).2.changed = true ↔ link.request = .whole ∧
      ∃ op, cliOp c cmd args = some op ∧ (op.outcome s).isOk = true) := by
  by_cases harrived : link.request = .whole
  · obtain ⟨request, response⟩ := link
    obtain rfl : request = .whole := harrived
    cases hop : cliOp c cmd args with
    | none =>
        obtain ⟨hsys, hchanged, resp, hresp, hok⟩ := leaves_cli hop
        refine ⟨(cli_exit hresp).trans ?_, hsys, by simp [hchanged]⟩
        rw [hok]
        simp
    | some op =>
        obtain ⟨hsys, hchanged, resp, hresp, hok⟩ := carriesOut_cli hop
        refine ⟨(cli_exit hresp).trans ?_, hsys, by simp [hchanged]⟩
        rw [hok]
        simp [ne_status_of_cliOp hop]
  · obtain ⟨hexit, hsys, hchanged⟩ := cli_of_not_arrived harrived
    refine ⟨⟨fun h => absurd h hexit, fun h => absurd (congrArg Link.request h.1) harrived⟩, ?_, ?_⟩
    · rw [if_neg harrived]
      exact hsys
    · exact ⟨fun h => absurd (hchanged.symm.trans h) (by simp), fun h => absurd h.1 harrived⟩

/-! ## The commands -/

/-- What a call of the program comes to. -/
inductive Course where
  | client (result : CliResult)
  /-- the program does it alone -/
  | alone (exit : Nat) (printed : Option String)
  /-- it goes on in `run_daemon` -/
  | daemon

/-- The exit code, if the program ends. -/
def Course.exit : Course → Option Nat
  | client result => some result.exit
  | alone exit _ => some exit
  | daemon => none

/-- The commands that are requests to the daemon. -/
def clientCommands : List String := ["status", "reload", "extension", "apply"]

/-- `main`, for the arguments behind the name of the program, and what happens to a daemon
that runs.  `truncated`: can the log be opened to truncate it? -/
def main (truncated : Bool) (link : Link) (c : Conn) (args : List String) (s : Sys) :
    Course × Served :=
  match args with
  | cmd :: rest =>
      if cmd ∈ clientCommands then
        let (result, served) := cli link c cmd rest s
        (.client result, served)
      else if cmd = "clear_log" then
        (if truncated then .alone 0 (some "ok") else .alone 1 none, ⟨none, s, false⟩)
      else if cmd = "--version" ∨ cmd = "version" then
        (.alone 0 (some ("ningshi v" ++ packageVersion)), ⟨none, s, false⟩)
      else (.daemon, ⟨none, s, false⟩)
  | [] => (.daemon, ⟨none, s, false⟩)

/-- The operation a call asks the daemon for. -/
def callOp (c : Conn) (args : List String) : Option Op :=
  args.head?.bind fun cmd => cliOp c cmd args.tail

/-- Only client commands ask for an operation. -/
theorem mem_clientCommands_of_cliOp {c : Conn} {cmd : String} {args : List String} {op : Op}
    (h : cliOp c cmd args = some op) : cmd ∈ clientCommands := by
  have hcmd : (cliRequest cmd args).cmd = cmd := rfl
  unfold cliOp Request.asks at h
  rw [hcmd] at h
  split_ifs at h with hreload hextension happly
  · simp [clientCommands, hreload]
  · simp [clientCommands, hextension]
  · simp [clientCommands, happly.1]

theorem cliOp_of_not_mem {c : Conn} {cmd : String} (h : cmd ∉ clientCommands)
    (args : List String) : cliOp c cmd args = none :=
  Option.eq_none_iff_forall_ne_some.mpr fun _ hop => h (mem_clientCommands_of_cliOp hop)

/-- **The command line tells the truth**, for every call.  The program becomes a daemon
unless its first argument is one of the commands.  It exits with 0 exactly when it prints
the version, has cleared the log, or as a client has got the answer that the operation has
succeeded, or the status.  A daemon that runs carries the operation out exactly when
the request has arrived, and ticks at once if it succeeded. -/
theorem main_faithful (truncated : Bool) (link : Link) (c : Conn) (args : List String)
    (s : Sys) :
    ((main truncated link c args s).1.exit = none ↔ ∀ cmd ∈ args.head?,
      cmd ∉ clientCommands ++ ["clear_log", "--version", "version"]) ∧
    ((main truncated link c args s).1.exit = some 0 ↔
      args.head? = some "--version" ∨ args.head? = some "version" ∨
      (args.head? = some "clear_log" ∧ truncated = true) ∨
      link = ⟨.whole, .whole⟩ ∧ (args.head? = some "status" ∨
        ∃ op, callOp c args = some op ∧ (op.outcome s).isOk = true)) ∧
    (main truncated link c args s).2.sys =
      (if link.request = .whole then ((callOp c args).map fun op => op.perform s).getD s
        else s) ∧
    ((main truncated link c args s).2.changed = true ↔ link.request = .whole ∧
      ∃ op, callOp c args = some op ∧ (op.outcome s).isOk = true) := by
  cases args with
  | nil => simp [main, Course.exit, callOp]
  | cons cmd rest =>
      by_cases hclient : cmd ∈ clientCommands
      · obtain ⟨hexit, hsys, hchanged⟩ := cli_faithful link c cmd rest s
        have hother : cmd ≠ "--version" ∧ cmd ≠ "version" ∧ cmd ≠ "clear_log" := by
          refine ⟨?_, ?_, ?_⟩ <;> rintro rfl <;> revert hclient <;> decide
        have hmain : main truncated link c (cmd :: rest) s =
            (.client (cli link c cmd rest s).1, (cli link c cmd rest s).2) := if_pos hclient
        rw [hmain]
        refine ⟨?_, ?_, hsys, hchanged⟩
        · simp [Course.exit, hclient]
        · simpa [Course.exit, hother, callOp] using hexit
      · have hop : callOp c (cmd :: rest) = none := cliOp_of_not_mem hclient rest
        have hstatus : cmd ≠ "status" := fun h => hclient (h ▸ .head _)
        simp only [hop, reduceCtorEq, false_and, exists_false, and_false, or_false,
          Option.map_none, Option.getD_none, ite_self, iff_false, List.head?_cons,
          Option.some.injEq, hstatus]
        by_cases hclear : cmd = "clear_log"
        · subst hclear
          cases truncated <;> simp [main, hclient, Course.exit]
        by_cases hversion : cmd = "--version" ∨ cmd = "version"
        · simp only [main, if_neg hclient, if_neg hclear, if_pos hversion]
          rcases hversion with rfl | rfl <;> simp [Course.exit]
        · obtain ⟨hlong, hshort⟩ := not_or.mp hversion
          simp [main, hclient, hclear, hlong, hshort, Course.exit]

end Ningshi
