import ClientBindings.Json.Bytes
import ClientBindings.Numeric.Arithmetic
import ClientBindings.Wire.Message
import ClientBindings.Wire.Server
import ClientBindings.Wire.Status
import ClientBindings.Wire.Token
import ClientBindings.Wire.Url

/-! The request pipeline: defaults are merged under a request's configuration, plugins transform it in
turn, and the outcome is one request on the network and a decoded answer. The network itself is a
parameter: it says what it replies, or that it never does. -/

namespace ClientBindings.Wire

inductive Plugin where
  | server (s : Server)
  | tokens (r : TokenRegistry)
  | header (name : String) (value : Value)
deriving Repr, Inhabited

def Plugin.transform (p : Plugin) (config : Config) : Result Config := do
  match p with
  | .server s => return (s.transform config).getD config
  | .tokens r => return (← r.transform config).getD config
  | .header name v => config.withHeader name v

structure Reply where
  status : Int
  body : List UInt8
deriving Repr, Inhabited

def Reply.text (r : Reply) : String := String.ofList (Utf8.decodeLossy r.body)

/-- The body read as JSON in the encoding it shows. -/
def Reply.json (r : Reply) : Result Value := return .ofData (← Json.parseBytes r.body)

inductive RequestFailure where
  | failed (cause : Failure)
  /-- The answer's status is no success; carries the decoded body and the configuration used. -/
  | refused (status : Int) (data : Value) (config : Config)
  | timedOut (message : String)
  | aborted
deriving Repr, Inhabited

namespace RequestFailure

def message : RequestFailure → String
  | .failed cause => cause.message
  | .refused status _ _ => "RequestError: " ++ toString status
  | .timedOut message => message
  | .aborted => "signal is aborted without reason"

end RequestFailure

/-- How an answer is decoded. -/
inductive Decoding where
  | json | text | blob | none
deriving DecidableEq, Repr, Inhabited

structure Response where
  status : Int
  data : Value
deriving Repr, Inhabited

structure Client where
  /-- The configuration under every request's own. -/
  defaults : Value
  plugins : List (Nat × Plugin) := []
  /-- Whether requests are completed to messages for a connection of the client's own. Otherwise whoever
  sends them takes them as they are. -/
  isConnected : Bool := false
deriving Repr, Inhabited

/-- What goes out. -/
inductive Sent where
  | request (r : Request)
  | message (m : Message)
deriving Repr, Inhabited

/-- What was sent, also when the request failed afterwards. -/
structure Exchange (α : Type) where
  sent : Option Sent
  result : Except RequestFailure α

namespace Client

def use (c : Client) (id : Nat) (p : Plugin) : Client := { c with plugins := c.plugins ++ [(id, p)] }

def disuse (c : Client) (id : Nat) : Client := { c with plugins := c.plugins.filter (·.1 != id) }

def transform (c : Client) (config : Value) : Result Config := do
  let merged ← Config.merge [c.defaults, config]
  c.plugins.foldlM (fun config p => p.2.transform config) merged

/-- The URL parts that are there; each has to be a text. -/
def urlPart (v : Value) : Result (Option String) :=
  if !v.truthy then return none else
  match v with
  | .str s => return some s
  | _ => throw .wrongKind

/-- What a silent network ends in: an abort if the signal is raised, else the end of the time allowed. -/
def silence (config : Config) : RequestFailure :=
  match config.get "signal" with
  | .signal true => .aborted
  | _ =>
    let message := config.get "timeout_error_message"
    .timedOut (if message.truthy then message.text else "signal timed out")

def prepare (c : Client) (url : String) (config : Config) : Result Sent := do
  let request ← Request.ofConfig url config
  if c.isConnected then return .message (← Message.ofRequest request) else return .request request

/-- Answers are accepted from absolute addresses only. -/
def accept (sent : Sent) (r : Reply) : Result Reply :=
  match sent with
  | .message m => if m.address.isAbsolute then return r else throw .badValue
  | .request _ => return r

/-- Sends a prepared request. A request with a time limit or a signal ends without an answer as
`silence` tells. -/
def exchange (c : Client) (config : Config) (url : String) (reply : Option Reply) : Exchange Reply :=
  match c.prepare url config with
  | .error e => ⟨none, .error (.failed e)⟩
  | .ok sent =>
    match reply with
    | some r => ⟨some sent, (accept sent r).mapError .failed⟩
    | none => ⟨some sent, .error (silence config)⟩

/-- A time limit is a number that floats reach. -/
def checkLimit : Value → Result Unit
  | .bool _ | .float _ => return ()
  | .int n => if (Double.ofInt n).isFinite then return () else throw .tooLarge
  | _ => throw .wrongKind

/-- Signals and time limits have to be what they are used as. -/
def checkLimits (config : Config) : Result Unit :=
  match config.get "signal", config.get "timeout" with
  | .null, timeout => if timeout.truthy then checkLimit timeout else return ()
  | .signal _, timeout => if timeout.isNull then return () else checkLimit timeout
  | _, _ => throw .noMember

/-- The decoded body of an unsuccessful answer, its text where it is no JSON. -/
def refusalData (r : Reply) : Value :=
  match r.json with
  | .ok v => v
  | .error _ => .str r.text

def request (c : Client) (url : String) (config : Value) (reply : Option Reply) : Exchange Reply :=
  let prepared : Result (Config × String) := do
    let config ← c.transform config
    let parts := [← urlPart (config.get "base_url"), ← urlPart (.str url)]
    checkLimits config
    return (config, joinUrl parts)
  match prepared with
  | .error e => ⟨none, .error (.failed e)⟩
  | .ok (config, url) =>
    let e := c.exchange config url reply
    match e.result with
    | .ok r =>
      if Status.isSuccess r.status then e
      else ⟨e.sent, .error (.refused r.status (refusalData r) config)⟩
    | .error _ => e

/-- A configuration that asks for JSON unless it names another type. -/
def askingJson (config : Value) : Result Value := do
  match config with
  | .map entries =>
    let headers ← spread (Value.getD entries "headers")
    let asked := Entries.merge Value.same [(.str "Accept", .str "application/json")] headers
    return .map (Value.put entries "headers" (.map asked))
  | _ => throw .wrongKind

def decode (d : Decoding) (r : Reply) : Result Value :=
  match d with
  | .json => if r.body.isEmpty then return .null else r.json
  | .text => return .str r.text
  | .blob => return .bytes r.body
  | .none => return .null

def fetch (c : Client) (d : Decoding) (url : String) (config : Value) (reply : Option Reply) :
    Exchange Response :=
  match (if d = .json then askingJson config else return config) with
  | .error e => ⟨none, .error (.failed e)⟩
  | .ok config =>
    let e := c.request url config reply
    ⟨e.sent, do
      let r ← e.result
      match decode d r with
      | .ok data => return ⟨r.status, data⟩
      | .error cause => throw (.failed cause)⟩

end Client
end ClientBindings.Wire
