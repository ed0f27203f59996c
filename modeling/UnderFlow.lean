import UnderFlow.LTS.Run
import UnderFlow.LTS.Pool
import UnderFlow.LTS.Fair
import UnderFlow.LTS.Exchange
import UnderFlow.LTS.Bulletin
import UnderFlow.LTS.Dialogue
import UnderFlow.Data.FirstFit
import UnderFlow.Data.Path
import UnderFlow.Data.Numeral
import UnderFlow.Data.Memory
import UnderFlow.Data.Layout
import UnderFlow.Data.FlatFile
import UnderFlow.Data.BitMask
import UnderFlow.Data.Shuffle
import UnderFlow.Data.RunningPrint
import UnderFlow.Data.Utf8
import UnderFlow.Common.Protocol
import UnderFlow.Common.Wire
import UnderFlow.Common.Codec
import UnderFlow.Client.Board
import UnderFlow.Client.Reading
import UnderFlow.Client.Bounds
import UnderFlow.Client.Shelves
import UnderFlow.Client.Showing
import UnderFlow.Client.Input
import UnderFlow.Client.TagText
import UnderFlow.Client.Wrapping
import UnderFlow.Client.Typing
import UnderFlow.Client.Answering
import UnderFlow.Client.Locking
import UnderFlow.Server.Market
import UnderFlow.Server.Sandbox
import UnderFlow.Server.UserDb
import UnderFlow.Server.UserFile
import UnderFlow.Server.TornAppend
import UnderFlow.Server.State
import UnderFlow.Server.Op
import UnderFlow.Server.Alone
import UnderFlow.Server.Trade
import UnderFlow.Server.Rounds
import UnderFlow.Server.Scoreboard
import UnderFlow.Server.Raids
import UnderFlow.Server.Events
import UnderFlow.Server.RandomTags
import UnderFlow.Server.Session
import UnderFlow.Server.Step
import UnderFlow.Server.Effect
import UnderFlow.Server.Footprint
import UnderFlow.Server.Origin
import UnderFlow.Server.Records
import UnderFlow.Server.FileFrame
import UnderFlow.Server.Listings
import UnderFlow.Server.Orders
import UnderFlow.Server.RumorFee
import UnderFlow.Server.Balances
import UnderFlow.Server.Burned
import UnderFlow.Server.Sessions
import UnderFlow.Server.Isolation
import UnderFlow.Server.Raiding
import UnderFlow.Server.RaidOutcome
import UnderFlow.Server.Documents
import UnderFlow.Server.Entries
import UnderFlow.Server.Holdings
import UnderFlow.Server.FreezeCache
import UnderFlow.Server.LeakUndo
import UnderFlow.Server.Refusal
import UnderFlow.Server.FreshRound
import UnderFlow.Server.FrozenTrade
import UnderFlow.Server.Leaks
import UnderFlow.Server.Streams
import UnderFlow.Server.TableLock
import UnderFlow.Server.Lives
import UnderFlow.Server.Slots
import UnderFlow.Server.Handshake
import UnderFlow.Server.Clerks
import UnderFlow.Server.World
import UnderFlow.Server.Sales
import UnderFlow.Server.Announcing
import UnderFlow.Server.Places
import UnderFlow.Server.Placement
import UnderFlow.Server.Ledger
import UnderFlow.Server.Framing
import UnderFlow.Server.RoundState
import UnderFlow.Server.Countdown
import UnderFlow.Server.Bankruptcy
import UnderFlow.Server.Inventory
import UnderFlow.Tools.Watchdog
import UnderFlow.Server.Channel
import UnderFlow.Server.House
import UnderFlow.Server.Dealing
import UnderFlow.Server.Backing
import UnderFlow.Server.Atomic
import UnderFlow.Server.Replies
import UnderFlow.Server.Ending
import UnderFlow.Server.Liveness
import UnderFlow.Server.Fitting
import UnderFlow.Server.Schedule
