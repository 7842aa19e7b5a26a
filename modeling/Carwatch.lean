import Carwatch.Lib.Machine
import Carwatch.Lib.Json
import Carwatch.Lib.JsonText
import Carwatch.Lib.RoundRobin
import Carwatch.Lib.Brackets
import Carwatch.Lib.Dict
import Carwatch.Store.Atomicity
import Carwatch.Store.Numbering
import Carwatch.Store.Failure
import Carwatch.Store.Recovery
import Carwatch.Ipc.RingDepth
import Carwatch.Interface.Server
import Carwatch.Store.Storaged
import Carwatch.Store.Damage
import Carwatch.Store.Cut
import Carwatch.Interface.Json
import Carwatch.Interface.JsonTree
import Carwatch.Interface.Construction
import Carwatch.Interface.Kv
import Carwatch.Interface.Grammar
import Carwatch.Interface.Percent
import Carwatch.Interface.Query
import Carwatch.Interface.Response
import Carwatch.Interface.Route
import Carwatch.Interface.Reply
import Carwatch.Interface.Pairs
import Carwatch.Interface.Synth
import Carwatch.Interface.SynthReply
import Carwatch.Interface.Layout
import Carwatch.Interface.Loop
import Carwatch.Interface.Deadline
import Carwatch.Interface.Slots
import Carwatch.Interface.Delivery
import Carwatch.Store.Draining
import Carwatch.Store.Handover
import Carwatch.Store.Window
import Carwatch.Store.NoLoss
import Carwatch.Store.NoRepeat
import Carwatch.Store.Smooth
import Carwatch.Obdlog.Schedule
import Carwatch.Obdlog.Log
import Carwatch.Obdlog.Session
import Carwatch.Obdlog.Written
import Carwatch.Obdlog.Events
import Carwatch.Obdlog.Reset
import Carwatch.Store.Capacity
import Carwatch.BoardSync.Checklist
import Carwatch.BoardSync.Tags
import Carwatch.BoardSync.Document
import Carwatch.BoardSync.Editing
import Carwatch.BoardSync.Table
import Carwatch.BoardSync.Rendering
import Carwatch.BoardSync.Hub
import Carwatch.Lib.Hoare
import Carwatch.BoardSync.Sync
import Carwatch.BoardSync.Safety
import Carwatch.BoardSync.Settling
import Carwatch.BoardSync.Convergence
import Carwatch.Obd.Vin
import Carwatch.Obd.Survey
import Carwatch.BoardSync.Drift
import Carwatch.BoardSync.Cards
import Carwatch.Obdlog.Durability
import Carwatch.Interface.Statusd
import Carwatch.Interface.Main
