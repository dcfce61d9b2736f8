import Mathlib.Logic.Function.Basic
import RoseChain.Server.RateLimits

namespace RoseChain

/-- The two ends of a connection. -/
inductive Side
  | outbound
  | inbound
  deriving DecidableEq

namespace Side

def peer : Side → Side
  | outbound => inbound
  | inbound => outbound

@[simp] theorem peer_peer (s : Side) : s.peer.peer=s := by cases s <;> rfl
@[simp] theorem peer_ne (s : Side) : s.peer≠s := by cases s <;> exact nofun
def Numbers : Side → ℕ → Prop
  | outbound,n => n<2^15
  | inbound,n => 2^15≤n ∧ n<2^16

def firstNonce : Side → ℕ
  | outbound => 0
  | inbound => 2^15

def nextNonce : Side → ℕ → ℕ
  | outbound,n => if n≠2^15-1 then n+1 else 0
  | inbound,n => if n≠2^16-1 then n+1 else 2^15

end Side

/-- What a message is sent for: a call of `create_request`, the reply to one, or something else. -/
inductive Purpose
  | request (call : ℕ)
  | reply (call : ℕ)
  | other
  deriving DecidableEq

def Purpose.answered : Purpose → Purpose
  | .request call => .reply call
  | _ => .other

structure Packet where
  message : Message
  purpose : Purpose
  deriving DecidableEq

/-- A `time_out` task: not begun yet, asleep, or cancelled in its sleep. -/
inductive TimerPhase
  | scheduled
  | sleeping
  | cancelled
  deriving DecidableEq

structure Timer where
  call : ℕ
  reqId : ℕ
  phase : TimerPhase
  deriving DecidableEq

/-- One end: an entry of the first two dictionaries is the event and the timer of a call. The queue holds what
has not arrived, in no order, since the rate limiter delays some messages. -/
structure WSChiaConnection where
  requestNonce : ℕ
  closed : Bool
  pendingRequests : ℕ → Option ℕ
  pendingTimeouts : ℕ → Option ℕ
  requestResults : ℕ → Option Packet
  isSet : ℕ → Bool
  timers : List Timer
  /-- The calls that wait for their event, with their request numbers. -/
  waiting : List (ℕ × ℕ)
  outgoingQueue : List Packet
  /-- What was handed to the API and is not answered. -/
  incoming : List Packet

/-- What happens to the calls and messages. -/
inductive WSEvent
  /-- A call returns; `due` where its own timer has run out or the connection is closed. -/
  | returned (side : Side) (call : ℕ) (result : Option Packet) (due : Bool)
  | expired (call : ℕ)
  /-- A message goes to the API, while its call waits or not. -/
  | handed (side : Side) (packet : Packet) (waits : Bool)
  | raised (side : Side)
  deriving DecidableEq

structure RequestLink where
  conn : Side → WSChiaConnection
  calls : ℕ
  log : List WSEvent

inductive WSAction
  | createRequest (side : Side) (type : ℕ) (data : Bytes)
  | sendMessage (side : Side) (type : ℕ) (data : Bytes)
  | startTimer (side : Side) (timer : Timer)
  | timeOut (side : Side) (timer : Timer)
  | wakeCancelled (side : Side) (timer : Timer)
  | deliver (side : Side) (packet : Packet)
  | lose (side : Side) (packet : Packet)
  | answer (side : Side) (packet : Packet) (response : Option (ℕ × Bytes))
  | resume (side : Side) (call reqId : ℕ)
  | close (side : Side)
  | cancelPendingTimeouts (side : Side)

namespace WSChiaConnection

def start (s : Side) : WSChiaConnection where
  requestNonce := s.firstNonce
  closed := false
  pendingRequests := fun _ => none
  pendingTimeouts := fun _ => none
  requestResults := fun _ => none
  isSet := fun _ => false
  timers := []
  waiting := []
  outgoingQueue := []
  incoming := []

/-- `create_request` up to the wait for the event. -/
def createRequest (c : WSChiaConnection) (s : Side) (call type : ℕ) (data : Bytes) : WSChiaConnection :=
  let requestId := c.requestNonce
  { c with
    requestNonce := s.nextNonce requestId
    pendingRequests := Function.update c.pendingRequests requestId (some call)
    pendingTimeouts := Function.update c.pendingTimeouts requestId (some call)
    timers := c.timers++[⟨call,requestId,.scheduled⟩]
    waiting := c.waiting++[(call,requestId)]
    outgoingQueue := c.outgoingQueue++[⟨⟨type,some requestId,data⟩,.request call⟩] }

/-- `pending_requests[n].set()`, if there is such an entry. -/
def setEvent (c : WSChiaConnection) (n : ℕ) : WSChiaConnection :=
  match c.pendingRequests n with
  | some call => { c with isSet := Function.update c.isSet call true }
  | none => c

/-- The end of `time_out`. -/
def wake (c : WSChiaConnection) (t : Timer) : WSChiaConnection :=
  { c with timers := c.timers.erase t }.setEvent t.reqId

/-- The call that waits for a message with this number. -/
def pendingFor (c : WSChiaConnection) (id : Option ℕ) : Option ℕ := id.bind c.pendingRequests

/-- `inbound_handler`: a result for a pending request, or a message for the API. -/
def receive (c : WSChiaConnection) (p : Packet) : WSChiaConnection :=
  match p.message.id with
  | none => { c with incoming := c.incoming++[p] }
  | some n =>
    match c.pendingRequests n with
    | some call =>
      { c with
        requestResults := Function.update c.requestResults n (some p)
        isSet := Function.update c.isSet call true }
    | none => { c with incoming := c.incoming++[p] }

/-- Whether a call of this side still waits for the message. -/
def waitsFor (c : WSChiaConnection) (p : Packet) : Bool :=
  match p.purpose with
  | .reply call => c.waiting.any fun w => w.1=call
  | _ => false

/-- `reply_to_request` with the number of the message that is answered. -/
def answer (c : WSChiaConnection) (p : Packet) (response : Option (ℕ × Bytes)) : WSChiaConnection :=
  let c := { c with incoming := c.incoming.erase p }
  match response with
  | none => c
  | some (type,data) =>
    if c.closed then c
    else
      { c with outgoingQueue := c.outgoingQueue++[⟨⟨type,p.message.id,data⟩,p.purpose.answered⟩] }

/-- `create_request` after its event is set. -/
def resume (c : WSChiaConnection) (call reqId : ℕ) : WSChiaConnection :=
  { c with
    pendingRequests := Function.update c.pendingRequests reqId none
    requestResults := Function.update c.requestResults reqId none
    waiting := c.waiting.erase (call,reqId) }

/-- A task that is cancelled before it begins never runs. -/
def cancelTimer (c : WSChiaConnection) (t : Timer) : Option Timer :=
  if c.pendingTimeouts t.reqId=some t.call then
    match t.phase with
    | .scheduled => none
    | _ => some { t with phase := .cancelled }
  else some t

end WSChiaConnection

namespace RequestLink

def start : RequestLink := ⟨WSChiaConnection.start,0,[]⟩

def set (net : RequestLink) (s : Side) (c : WSChiaConnection) : RequestLink :=
  { net with conn := Function.update net.conn s c }

def note (net : RequestLink) (e : WSEvent) : RequestLink := { net with log := net.log++[e] }

@[simp] theorem set_conn_self (net : RequestLink) (s : Side) (c : WSChiaConnection) :
    (net.set s c).conn s=c := Function.update_self ..

@[simp] theorem set_conn_peer (net : RequestLink) (s : Side) (c : WSChiaConnection) :
    (net.set s c).conn s.peer=net.conn s.peer := Function.update_of_ne (Side.peer_ne s) ..

def Enabled (net : RequestLink) : WSAction → Prop
  | .createRequest _ _ _ => True
  | .sendMessage s _ _ => (net.conn s).closed=false
  | .startTimer s t => t∈(net.conn s).timers ∧ t.phase = .scheduled
  | .timeOut s t => t∈(net.conn s).timers ∧ t.phase = .sleeping
  | .wakeCancelled s t => t∈(net.conn s).timers ∧ t.phase = .cancelled
  | .deliver s p => p∈(net.conn s.peer).outgoingQueue ∧ (net.conn s).closed=false
  | .lose s p => p∈(net.conn s).outgoingQueue
  | .answer s p _ => p∈(net.conn s).incoming
  | .resume s call reqId => (call,reqId)∈(net.conn s).waiting ∧ (net.conn s).isSet call=true
  | .close _ => True
  | .cancelPendingTimeouts s => (net.conn s).closed=true

def createRequest (net : RequestLink) (s : Side) (type : ℕ) (data : Bytes) : RequestLink :=
  let c := net.conn s
  if c.closed then
    { net with calls := net.calls+1 }.note (.returned s net.calls none true)
  else { net with calls := net.calls+1 }.set s (c.createRequest s net.calls type data)

def deliver (net : RequestLink) (s : Side) (p : Packet) : RequestLink :=
  let c := net.conn s
  let o := net.conn s.peer
  let net' := (net.set s.peer { o with outgoingQueue := o.outgoingQueue.erase p }).set s (c.receive p)
  if (c.pendingFor p.message.id).isSome then net' else net'.note (.handed s p (c.waitsFor p))

/-- `pop` raises where the number is not pending. -/
def resume (net : RequestLink) (s : Side) (call reqId : ℕ) : RequestLink :=
  let c := net.conn s
  if (c.pendingRequests reqId).isNone then
    (net.set s { c with waiting := c.waiting.erase (call,reqId) }).note (.raised s)
  else
    let due := c.closed || net.log.contains (.expired call)
    (net.set s (c.resume call reqId)).note (.returned s call (c.requestResults reqId) due)

def step (net : RequestLink) : WSAction → RequestLink
  | .createRequest s type data => net.createRequest s type data
  | .sendMessage s type data =>
    let c := net.conn s
    net.set s { c with outgoingQueue := c.outgoingQueue++[⟨⟨type,none,data⟩,.other⟩] }
  | .startTimer s t =>
    let c := net.conn s
    net.set s { c with timers := c.timers.erase t++[{ t with phase := .sleeping }] }
  | .timeOut s t => (net.set s ((net.conn s).wake t)).note (.expired t.call)
  | .wakeCancelled s t => net.set s ((net.conn s).wake t)
  | .deliver s p => net.deliver s p
  | .lose s p =>
    let c := net.conn s
    net.set s { c with outgoingQueue := c.outgoingQueue.erase p }
  | .answer s p response => net.set s ((net.conn s).answer p response)
  | .resume s call reqId => net.resume s call reqId
  | .close s => net.set s { net.conn s with closed := true }
  | .cancelPendingTimeouts s =>
    let c := net.conn s
    net.set s { c with timers := c.timers.filterMap c.cancelTimer }

/-- What is reached by actions that meet a condition. -/
inductive Run (P : RequestLink → WSAction → Prop) : RequestLink → Prop
  | start : Run P start
  | step {net : RequestLink} {a : WSAction} (h : Run P net) (henabled : net.Enabled a) (hP : P net a) :
    Run P (net.step a)

end RequestLink
end RoseChain
