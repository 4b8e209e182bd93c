import PicoOcaml.Value
import Mathlib.Logic.Function.Basic

/-! The ring buffer through which the lwIP callbacks report to OCaml. -/
namespace PicoOcaml

/-- `net_event_t`, with the union member its type selects. -/
inductive NetEvent
  | none
  | wifiConnected
  | wifiDisconnected
  | tcpConnected (socketId errorCode : ℤ)
  | tcpReceived (socketId : ℤ) (len : ℕ)
  | tcpSent (socketId : ℤ) (len : ℕ)
  | tcpClosed (socketId : ℤ)
  | tcpError (socketId errorCode : ℤ)
  | udpReceived (socketId : ℤ) (len : ℕ) (remoteIp : Word) (remotePort : BitVec 16)
deriving DecidableEq

def netEventQueueSize : ℕ := 32
def netEventQueueMask : ℕ := netEventQueueSize - 1

structure EventQueue where
  slots : ℕ → NetEvent
  head : ℕ
  tail : ℕ

def EventQueue.empty : EventQueue := ⟨fun _ => .none, 0, 0⟩

def eventEnqueue (event : NetEvent) (q : EventQueue) : ℤ × EventQueue :=
  let nextHead := (q.head + 1) &&& netEventQueueMask
  if nextHead = q.tail then (-1, q)
  else (0, { q with slots := Function.update q.slots q.head event, head := nextHead })

def netEventGet (q : EventQueue) : Option NetEvent × EventQueue :=
  if q.tail = q.head then (none, q)
  else (some (q.slots q.tail), { q with tail := (q.tail + 1) &&& netEventQueueMask })

end PicoOcaml
