import Mathlib.Data.List.Basic
import Plaza.Lib.Execution

namespace Plaza.Flutter

inductive PlazaStatus
  | idle
  | connecting
  | «open»
  | reconnecting
  | closed
  deriving DecidableEq, Repr

-- A socket, and whether the client listens to it. One that was told to close counts as closed from then on.
structure PlazaSocket where
  isOpen     : Bool
  closeCode  : Option Int
  subscribed : Bool
  deriving DecidableEq, Repr

-- A frame that arrives, as far as the client answers it or keeps something of it.
inductive Frame
  | goodbye (code : Int)
  | ping
  | other
  deriving DecidableEq, Repr

-- What a call of `stop` waits for: the subscription's end, the socket's, and those of the streams.
inductive Stopping
  | sub
  | socket
  | ops
  | pongs
  deriving DecidableEq, Repr

-- What a client is made with. The lengths of the waits between two attempts play no part.
structure PlazaConfig where
  retryOn     : Option Int → Bool
  maxAttempts : Option Nat
  credential  : Bool

-- Everything but a code which says that the server refused.
def retryUnlessRefused (closeCode : Option Int) : Bool :=
  closeCode.all fun code => code < 4000 || 4999 < code

-- The fields of a client, then what waits beside it: the sockets that were made for it so far, its attempts to open
-- one, and its calls of `stop`. A frame that passed is recorded with its socket and the one that was current.
structure PlazaClient where
  socket        : Option Nat
  sub           : Option Nat
  retryTimer    : Bool
  attempt       : Nat
  stopped       : Bool
  everConnected : Bool
  resuming      : Bool
  status        : PlazaStatus
  goodbye       : Option Int
  eventsClosed  : Bool
  sockets       : List PlazaSocket
  opening       : Nat
  stopping      : List Stopping
  carried       : List (Nat × Option Nat)

namespace PlazaClient

def new : PlazaClient where
  socket        := none
  sub           := none
  retryTimer    := false
  attempt       := 0
  stopped       := false
  everConnected := false
  resuming      := false
  status        := .idle
  goodbye       := none
  eventsClosed  := false
  sockets       := []
  opening       := 0
  stopping      := []
  carried       := []

def isOpen (c : PlazaClient) (i : Nat) : Bool :=
  c.sockets[i]?.any (·.isOpen)

def subscribed (c : PlazaClient) (i : Nat) : Bool :=
  c.sockets[i]?.any (·.subscribed)

-- The sockets after a cancellation of the subscription that the client has, if any.
def cancelled (c : PlazaClient) : List PlazaSocket :=
  c.sub.elim c.sockets fun i => c.sockets.modify i ({ · with subscribed := false })

-- The sockets after a close of the current one, if any.
def closed (c : PlazaClient) : List PlazaSocket :=
  c.socket.elim c.sockets fun i => c.sockets.modify i ({ · with isOpen := false })

-- The part of an attempt before its connect.
def «open» (c : PlazaClient) : PlazaClient :=
  if c.stopped then c
  else
    { c with
      status  := if c.everConnected then .reconnecting else .connecting
      opening := c.opening + 1 }

def start (c : PlazaClient) : PlazaClient :=
  { c with stopped := false }.open

-- The frame goes to the current socket, if that is open.
def sendFrame (c : PlazaClient) : PlazaClient :=
  match c.socket with
  | none   => c
  | some i => if c.isOpen i then { c with carried := c.carried ++ [(i, c.socket)] } else c

def resume (c : PlazaClient) : PlazaClient :=
  if c.stopped then c
  else if c.socket.any c.isOpen then c
  else { c with resuming := true, retryTimer := false, attempt := 0 }.open

def scheduleRetry (g : PlazaConfig) (c : PlazaClient) : PlazaClient :=
  if c.stopped then c
  else if g.maxAttempts.any (· ≤ c.attempt) then { c with status := .closed }
  else { c with attempt := c.attempt + 1, status := .reconnecting, retryTimer := true }

-- Whoever tells a closed stream of events something gets an error, which ends the step.
def failed (g : PlazaConfig) (c : PlazaClient) : PlazaClient :=
  let c := { c with opening := c.opening - 1 }
  if c.eventsClosed then c else c.scheduleRetry g

-- The part of an attempt after its connect. The Hello goes first, and the credential after it.
def connected (g : PlazaConfig) (c : PlazaClient) (isOpen : Bool) (closeCode : Option Int) : PlazaClient :=
  let i := c.sockets.length
  let c := { c with opening := c.opening - 1 }
  if c.stopped then
    { c with sockets := c.sockets ++ [{ isOpen := false, closeCode, subscribed := false }] }
  else
    { c with
      socket        := some i
      goodbye       := none
      sub           := some i
      sockets       := c.sockets ++ [{ isOpen, closeCode, subscribed := true }]
      carried       := c.carried ++ .replicate (if g.credential then 2 else 1) (i, some i)
      resuming      := false
      everConnected := true
      attempt       := 0
      status        := .open }

def onFrame (c : PlazaClient) (i : Nat) (frame : Frame) : PlazaClient :=
  let c := { c with carried := c.carried ++ [(i, c.socket)] }
  match frame with
  | .goodbye code => { c with goodbye := some code }
  | .ping         => c.sendFrame
  | .other        => c

-- The subscription and the socket are the ones the client has by now.
def onClosed (g : PlazaConfig) (c : PlazaClient) : PlazaClient :=
  let code := c.goodbye <|> c.socket.bind fun i => c.sockets[i]?.bind (·.closeCode)
  let c := { c with sockets := c.cancelled, sub := none, goodbye := none, socket := none }
  if c.stopped || c.eventsClosed then c
  else if !g.retryOn code then { c with status := .closed }
  else c.scheduleRetry g

-- The part of `stop` before its first wait.
def stop (c : PlazaClient) : PlazaClient :=
  { c with
    stopped    := true
    retryTimer := false
    sockets    := c.cancelled
    stopping   := .sub :: c.stopping }

-- The part of `stop` after each of its waits.
def stopOn (c : PlazaClient) : Stopping → PlazaClient
  | .sub    => { c with
    sub      := none
    sockets  := c.closed
    stopping := .socket :: c.stopping.erase .sub }
  | .socket => { c with
    socket   := none
    status   := .closed
    stopping := .ops :: c.stopping.erase .socket }
  | .ops    => { c with stopping := .pongs :: c.stopping.erase .ops }
  | .pongs  => { c with eventsClosed := true, stopping := c.stopping.erase .pongs }

-- What may happen next: a call of the application's, a timer, the outcome of an attempt, an event of a socket's, or the
-- end of a wait of `stop`.
inductive Step
  | start
  | resume
  | stop
  | send
  | retry
  | connected (isOpen : Bool) (closeCode : Option Int)
  | failed
  | drop (i : Nat) (code : Option Int)
  | done (i : Nat)
  | error (i : Nat)
  | frame (i : Nat) (frame : Frame)
  | stopOn (stopping : Stopping)
  deriving DecidableEq, Repr

-- A stream that is done has no listener any more. After an error it goes on.
def machine (g : PlazaConfig) : Machine PlazaClient Step where
  step c
    | .start                      => c.start
    | .resume                     => c.resume
    | .stop                       => c.stop
    | .send                       => c.sendFrame
    | .retry                      => if c.retryTimer then some { c with retryTimer := false }.open else none
    | .connected isOpen closeCode => if 0 < c.opening then c.connected g isOpen closeCode else none
    | .failed                     => if 0 < c.opening then c.failed g else none
    | .drop i closeCode           =>
      if c.isOpen i then
        some { c with sockets := c.sockets.modify i ({ · with isOpen := false, closeCode }) }
      else none
    | .done i                     =>
      if c.subscribed i then
        some <| { c with sockets := c.sockets.modify i ({ · with subscribed := false }) }.onClosed g
      else none
    | .error i                    => if c.subscribed i then some (c.onClosed g) else none
    | .frame i frame              => if c.subscribed i then some (c.onFrame i frame) else none
    | .stopOn stopping            => if stopping ∈ c.stopping then some (c.stopOn stopping) else none

-- What one live socket means. A client is stopped when a call of `stop` is past the wait for the subscription.
structure OneLive (g : PlazaConfig) (c : PlazaClient) : Prop where
  single     : ∀ i j, c.isOpen i → c.subscribed i → c.isOpen j → c.subscribed j → i = j
  carried    : ∀ frame ∈ c.carried, frame.snd = some frame.fst
  superseded : ∀ i step c', c.socket ≠ some i → step = .done i ∨ step = .error i ∨ (∃ code, step = .drop i code) →
    (machine g).step c step = some c' →
    c'.socket = c.socket ∧ c'.sub = c.sub ∧ ∀ j, c.socket = some j → c'.sockets[j]? = c.sockets[j]?
  stopped    : c.stopped → .sub ∉ c.stopping → ∀ i, ¬c.isOpen i ∧ ¬c.subscribed i

-- An attempt succeeds only when there is no other socket, and none that `stop` is about to give up. An event that ends
-- a connection comes from a socket that is closed.
def Orderly (c : PlazaClient) : Step → Prop
  | .connected ..       => c.stopped ∨ c.socket = none ∧ .sub ∉ c.stopping ∧ .socket ∉ c.stopping
  | .done i | .error i  => ¬c.isOpen i
  | _                   => True

instance (c : PlazaClient) (step : Step) : Decidable (c.Orderly step) := by
  unfold Orderly
  split <;> infer_instance

end PlazaClient
end Plaza.Flutter
