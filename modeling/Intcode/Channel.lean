import Intcode.Text.Quoted

/-! # Channels

A channel is a queue of integers from one sender to one receiver. Closing it puts an end mark behind
the queued values, so the receiver still gets those; from then on the mark stays at the front. A
receiver takes an item off the queue first and puts a mark back afterwards, in two actions (`take`,
`putBack`). -/

namespace Intcode

/-- What stands in a queue. -/
inductive Item
  | value (v : Int)
  | endMark
deriving DecidableEq, Repr

/-- The values in front of the first end mark, and what stands from the mark on. -/
def Item.cutValues : List Item → List Int × List Item
  | .value v :: is =>
    let (vs, rest) := cutValues is
    (v :: vs, rest)
  | is => ([], is)

/-- Once `closed`, a channel takes no more values. -/
structure Channel where
  name : String := ""
  queue : List Item := []
  closed : Bool := false
deriving DecidableEq, Repr, Inhabited

inductive ChannelFault
  | sendClosed (name : String)
  | recvClosed (name : String)
  | timedOut (name : String)
deriving DecidableEq, Repr

namespace ChannelFault

def message : ChannelFault → String
  | sendClosed name => "send on closed channel " ++ Text.quote name
  | recvClosed name => "recv on closed channel " ++ Text.quote name
  | timedOut name => "timed out waiting on channel " ++ Text.quote name

end ChannelFault

/-- What a receiver finds: a value, the end of the traffic, or nothing yet. -/
inductive Received
  | value (v : Int)
  | ended
  | nothing
deriving DecidableEq, Repr

namespace Channel

/-- An open channel with values queued. -/
def ofList (name : String) (values : List Int) : Channel :=
  { name, queue := values.map .value }

/-- Queues a value; a closed channel refuses it. -/
def send (v : Int) (c : Channel) : Except ChannelFault Channel :=
  if c.closed then .error (.sendClosed c.name)
  else .ok { c with queue := c.queue ++ [.value v] }

/-- Closes the channel; closing it again changes nothing. -/
def close (c : Channel) : Channel :=
  if c.closed then c else { c with queue := c.queue ++ [.endMark], closed := true }

/-- Takes the first item off the queue, a mark included. -/
def take (c : Channel) : Option (Item × Channel) :=
  match c.queue with
  | [] => none
  | i :: is => some (i, { c with queue := is })

/-- Puts the end mark back for the next receiver. -/
def putBack (c : Channel) : Channel := { c with queue := c.queue ++ [.endMark] }

/-- The first queued value. -/
def recv (c : Channel) : Received × Channel :=
  match c.take with
  | none => (.nothing, c)
  | some (.value v, c) => (.value v, c)
  | some (.endMark, c) => (.ended, c.putBack)

/-- Takes every value in front of the first end mark; the mark is taken too and put back. -/
def drain (c : Channel) : List Int × Channel :=
  let (vs, rest) := Item.cutValues c.queue
  match { c with queue := rest }.take with
  | none => (vs, { c with queue := [] })
  | some (_, c) => (vs, c.putBack)

/-- The queued values. -/
def values (c : Channel) : List Int := c.drain.1

/-- The name and the state of a channel, for display. -/
def label (c : Channel) : String :=
  "Channel(" ++ Text.quote c.name ++ ", " ++ (if c.closed then "closed" else "open") ++ ")"

/-- Why a timed receive failed. -/
inductive RecvFault
  | negativeTimeout
  | channel (f : ChannelFault)
deriving DecidableEq, Repr

/-- Receives with a bound on the waiting time, when nothing arrives while it waits. A negative bound
is refused before the queue is looked at. -/
def recvWithin (timeout : Rat) (c : Channel) : Except RecvFault Int × Channel :=
  if timeout < 0 then (.error .negativeTimeout, c)
  else match c.recv with
    | (.value v, c) => (.ok v, c)
    | (.ended, c) => (.error (.channel (.recvClosed c.name)), c)
    | (.nothing, c) => (.error (.channel (.timedOut c.name)), c)

/-- Receives without a bound, while the other side performs `act` once the receiver waits: what is
received, or nothing if it still waits afterwards. -/
def recvDuring (act : Channel → Channel) (c : Channel) : Received × Channel :=
  match c.recv with
  | (.nothing, c) => (act c).recv
  | (r, c) => (r, act c)

theorem closed_close (c : Channel) : c.close.closed = true := by
  unfold close; split <;> simp_all

theorem send_of_closed {c : Channel} (h : c.closed = true) (v : Int) :
    c.send v = .error (.sendClosed c.name) := by simp [send, h]

theorem send_of_open {c : Channel} (h : c.closed = false) (v : Int) :
    c.send v = .ok { c with queue := c.queue ++ [.value v] } := by simp [send, h]

theorem cutValues_map_value (vs : List Int) : Item.cutValues (vs.map .value) = (vs, []) := by
  induction vs with
  | nil => rfl
  | cons v vs ih => simp [Item.cutValues, ih]

theorem values_ofList (name : String) (vs : List Int) : (ofList name vs).values = vs := by
  simp [values, drain, ofList, cutValues_map_value, take]

end Channel

end Intcode
