import PicoOcaml.NetStubs.Addresses
import PicoOcaml.NetStubs.Slots
import PicoOcaml.NetStubs.Stream
import PicoOcaml.OcamlStubs.Mutex
import PicoOcaml.OcamlStubs.MutexExclusion
import PicoOcaml.OcamlStubs.Core1
import PicoOcaml.OcamlStubs.Core1Handshake
import PicoOcaml.Pio.Book
import PicoOcaml.Pio.Machine
import PicoOcaml.Pio.Moves
import PicoOcaml.Pio.Shifts
import PicoOcaml.Pio.Ledger
import PicoOcaml.Pio.OneShot
import PicoOcaml.Pio.Agreement
import PicoOcaml.Pio.Lost
import PicoOcaml.Pio.Control
import PicoOcaml.Pio.Census
import PicoOcaml.Pio.PromiseAgreement
import PicoOcaml.Pio.MainFiber
import PicoOcaml.Pio.MainCompletion
import PicoOcaml.Pio.Network
import PicoOcaml.Pio.ReadWakeup
import PicoOcaml.EventQueue.Interleaved
import PicoOcaml.NetStubs.Buffers
import PicoOcaml.OcamlStubs.Heap
import PicoOcaml.OcamlStubs.SlotTable
import PicoOcaml.OcamlStubs.Condvar
import PicoOcaml.OcamlStubs.Tracking
import PicoOcaml.OcamlStubs.TrackingExact
import PicoOcaml.Clock
import PicoOcaml.Clock.Display
import PicoOcaml.Clock.TimeBase
import PicoOcaml.Lcd
import PicoOcaml.Lcd.Wire
import PicoOcaml.Net
import PicoOcaml.Pio.SingleFiber
import PicoOcaml.Pio.Stages
import PicoOcaml.Net.Oracle
import PicoOcaml.Net.Agreement
import PicoOcaml.Clock.NtpTime
import PicoOcaml.NetStubs.Send
import PicoOcaml.NetStubs.Datagrams
import PicoOcaml.Clock.NtpQuery
import PicoOcaml.Pio.Timeouts
import PicoOcaml.Pio.FiberCount
import PicoOcaml.NetStubs.SlotStates
import PicoOcaml.Pio.Observed
import PicoOcaml.Pio.ConnectWakeup
import PicoOcaml.OcamlStubs.InterruptSafety
import PicoOcaml.Pio.Elements
import PicoOcaml.Pio.FiberAll
import PicoOcaml.Pio.Calls
import PicoOcaml.Hello
import PicoOcaml.Hello.Body
import PicoOcaml.Net.AddressText
import PicoOcaml.Pio.NetHandlers
import PicoOcaml.OcamlStubs.Memalign
import PicoOcaml.OcamlStubs.Stacks
import PicoOcaml.Pio.Polling
import PicoOcaml.Net.Hosts
import PicoOcaml.Pio.Chronicle
import PicoOcaml.Pio.OwnSlot
import PicoOcaml.Pio.ConnectFailure
import PicoOcaml.Pio.Origins
import PicoOcaml.Pio.HookProgress
import PicoOcaml.Pio.Hooks
import PicoOcaml.Handles
import PicoOcaml.Locked
import PicoOcaml.OcamlStubs.Console
import PicoOcaml.NetStubs.Pcbs
import PicoOcaml.NetStubs.NetLock
import PicoOcaml.OcamlStubs.SbrkLock
import PicoOcaml.Lcd.Screen
import PicoOcaml.Clock.Screen
import PicoOcaml.Pio.RunQueue
import PicoOcaml.Hello.Primes
import PicoOcaml.Pio.StackDepth
import PicoOcaml.Pio.Deadlock
import PicoOcaml.OcamlStubs.ThreadLocal
import PicoOcaml.Pipe
import PicoOcaml.NetStubs.Pipes
import PicoOcaml.Pio.Probes
import PicoOcaml.Pio.ByteStream
import PicoOcaml.Pio.Sent
import PicoOcaml.Pio.Resumption
import PicoOcaml.Pio.Thread
import PicoOcaml.Hello.Http
import PicoOcaml.Pio.FiberDone
