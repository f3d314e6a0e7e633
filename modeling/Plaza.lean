import Plaza.ClientUtils.Arrival
import Plaza.ClientUtils.ClockSync
import Plaza.ClientUtils.Correction
import Plaza.ClientUtils.Determinism
import Plaza.ClientUtils.Fixed
import Plaza.ClientUtils.Hermite
import Plaza.ClientUtils.Interpolation
import Plaza.ClientUtils.Meter
import Plaza.ClientUtils.Mirror
import Plaza.ClientUtils.Playout
import Plaza.ClientUtils.Prediction
import Plaza.ClientUtils.Rollback
import Plaza.ClientUtils.Route
import Plaza.ClientUtils.Slot
import Plaza.ClientUtils.Theorems.Ack
import Plaza.ClientUtils.Theorems.Arrival
import Plaza.ClientUtils.Theorems.ClockSync
import Plaza.ClientUtils.Theorems.Correction
import Plaza.ClientUtils.Theorems.Determinism
import Plaza.ClientUtils.Theorems.Filter
import Plaza.ClientUtils.Theorems.Fixed
import Plaza.ClientUtils.Theorems.HeldInput
import Plaza.ClientUtils.Theorems.Hermite
import Plaza.ClientUtils.Theorems.Interpolation
import Plaza.ClientUtils.Theorems.Meter
import Plaza.ClientUtils.Theorems.Mirror
import Plaza.ClientUtils.Theorems.Playout
import Plaza.ClientUtils.Theorems.RemoteView
import Plaza.ClientUtils.Theorems.Rollback
import Plaza.ClientUtils.Theorems.Route.Check
import Plaza.ClientUtils.Theorems.Route.Walk
import Plaza.ClientUtils.Theorems.Slot
import Plaza.ClientUtils.Theorems.Timeline
import Plaza.ClientUtils.Theorems.Timestep
import Plaza.ClientUtils.Theorems.Trajectory
import Plaza.ClientUtils.Timeline
import Plaza.ClientUtils.Timestep
import Plaza.Core.Controller
import Plaza.Core.DelayedInput
import Plaza.Core.EventScheduler
import Plaza.Core.Phases
import Plaza.Core.Session
import Plaza.Core.Theorems.Controller
import Plaza.Core.Theorems.DelayedInput
import Plaza.Core.Theorems.EventScheduler
import Plaza.Core.Theorems.TickDriver
import Plaza.Core.Turns
import Plaza.Flutter.Ack
import Plaza.Flutter.Client
import Plaza.Flutter.Digest
import Plaza.Flutter.Interpolation
import Plaza.Flutter.Mirror
import Plaza.Flutter.MsgPack
import Plaza.Flutter.NetSim
import Plaza.Flutter.OpSequencer
import Plaza.Flutter.Rollback
import Plaza.Flutter.Saturating
import Plaza.Flutter.Theorems.Ack
import Plaza.Flutter.Theorems.Client
import Plaza.Flutter.Theorems.Digest
import Plaza.Flutter.Theorems.Interpolation
import Plaza.Flutter.Theorems.Mirror
import Plaza.Flutter.Theorems.MsgPack.Malformed
import Plaza.Flutter.Theorems.MsgPack.Reading
import Plaza.Flutter.Theorems.MsgPack.RoundTrip
import Plaza.Flutter.Theorems.NetSim
import Plaza.Flutter.Theorems.OpSequencer
import Plaza.Flutter.Theorems.Rollback
import Plaza.Flutter.Theorems.Saturating
import Plaza.Lib.Bits
import Plaza.Lib.Dart
import Plaza.Lib.DartProgram
import Plaza.Lib.Delta
import Plaza.Lib.Execution
import Plaza.Lib.Greedy
import Plaza.Lib.Grid
import Plaza.Lib.Maps
import Plaza.Lib.Newton
import Plaza.Lib.Ordered
import Plaza.Lib.Rust
import Plaza.Lib.TokenBucket
import Plaza.Lib.Trace
import Plaza.Lib.Window
import Plaza.Lib.Words
import Plaza.Lib.Worklist
import Plaza.Lobby.Manager
import Plaza.Lobby.Matchmaking
import Plaza.Lobby.Reservations
import Plaza.Lobby.Theorems.Manager
import Plaza.Lobby.Theorems.Matchmaking
import Plaza.Lobby.Theorems.Reservations
import Plaza.Lobby.Theorems.Tickets
import Plaza.Lobby.Tickets
import Plaza.Protocols.Acks
import Plaza.Protocols.Mirror
import Plaza.Protocols.Occupancy
import Plaza.Protocols.Prediction
import Plaza.Protocols.Presence
import Plaza.Protocols.Relevance
import Plaza.Protocols.Rollback
import Plaza.Protocols.Theorems.Acks
import Plaza.Protocols.Theorems.Controller
import Plaza.Protocols.Theorems.Firings
import Plaza.Protocols.Theorems.HeldInput
import Plaza.Protocols.Theorems.Mirror
import Plaza.Protocols.Theorems.Occupancy
import Plaza.Protocols.Theorems.Prediction
import Plaza.Protocols.Theorems.Presence
import Plaza.Protocols.Theorems.Relevance.Flow
import Plaza.Protocols.Theorems.Relevance.Invariant
import Plaza.Protocols.Theorems.Relevance.Resync
import Plaza.Protocols.Theorems.Rollback
import Plaza.Protocols.Theorems.Timetable
import Plaza.Protocols.Theorems.Turns
import Plaza.Protocols.Timetable
import Plaza.Protocols.Turns
import Plaza.ServerUtils.Aggregate
import Plaza.ServerUtils.Field
import Plaza.ServerUtils.History
import Plaza.ServerUtils.InputSchedule
import Plaza.ServerUtils.OneShot
import Plaza.ServerUtils.Priority
import Plaza.ServerUtils.Relevance
import Plaza.ServerUtils.Seats.Crew
import Plaza.ServerUtils.Seats.Roster
import Plaza.ServerUtils.Seats.Slots
import Plaza.ServerUtils.Subscription
import Plaza.ServerUtils.Theorems.Aggregate
import Plaza.ServerUtils.Theorems.Delta
import Plaza.ServerUtils.Theorems.Field
import Plaza.ServerUtils.Theorems.History
import Plaza.ServerUtils.Theorems.InputSchedule
import Plaza.ServerUtils.Theorems.Morton
import Plaza.ServerUtils.Theorems.OneShot
import Plaza.ServerUtils.Theorems.Priority
import Plaza.ServerUtils.Theorems.Relevance
import Plaza.ServerUtils.Theorems.Seats.Crew
import Plaza.ServerUtils.Theorems.Seats.Places
import Plaza.ServerUtils.Theorems.Seats.Settled
import Plaza.ServerUtils.Theorems.Seats.Slots
import Plaza.ServerUtils.Theorems.Subscription
import Plaza.ServerUtils.Theorems.Told
import Plaza.ServerUtils.Theorems.Visibility
import Plaza.ServerUtils.Visibility
import Plaza.Session.Admission
import Plaza.Session.Budget
import Plaza.Session.Conditioner
import Plaza.Session.Control
import Plaza.Session.Downlink
import Plaza.Session.Driver
import Plaza.Session.Measurement
import Plaza.Session.Registry
import Plaza.Session.Tcp
import Plaza.Session.Theorems.Admission
import Plaza.Session.Theorems.Budget
import Plaza.Session.Theorems.Conditioner
import Plaza.Session.Theorems.Control
import Plaza.Session.Theorems.Downlink
import Plaza.Session.Theorems.Loops
import Plaza.Session.Theorems.Measurement
import Plaza.Session.Theorems.Registry
import Plaza.Session.Theorems.Uplink
import Plaza.Session.Uplink
import Plaza.Wire.BitCodec
import Plaza.Wire.Bits
import Plaza.Wire.Build.DartRender
import Plaza.Wire.Build.DartTypes
import Plaza.Wire.Build.Hash
import Plaza.Wire.Build.Resolve
import Plaza.Wire.Build.Theorems.DartRender.Code
import Plaza.Wire.Build.Theorems.DartRender.Correspondence
import Plaza.Wire.Build.Theorems.DartRender.Faithful
import Plaza.Wire.Build.Theorems.DartTypes
import Plaza.Wire.Build.Theorems.Resolve
import Plaza.Wire.Frame
import Plaza.Wire.Theorems.BitCodec
import Plaza.Wire.Theorems.Bits
import Plaza.Wire.Theorems.Framing
import Plaza.Wire.Theorems.RoundTrip
import Plaza.WsClient.Loopback
import Plaza.WsClient.Pump
import Plaza.WsClient.Theorems.Loopback
import Plaza.WsClient.Theorems.Pump
