import MatchingEngine.Lib.SortedMap
import MatchingEngine.Lib.PriorityList
import MatchingEngine.Lib.Arena
import MatchingEngine.Lib.Probing
import MatchingEngine.Lib.Machine
import MatchingEngine.Lib.Bytes
import MatchingEngine.Lib.Framing
import MatchingEngine.Lib.LogLinear
import MatchingEngine.Lib.Decimal
import MatchingEngine.Lib.Numbering
import MatchingEngine.Lib.Fairness
import MatchingEngine.Lib.Monitor
import MatchingEngine.Common.Types
import MatchingEngine.Common.Endian
import MatchingEngine.Common.Histogram
import MatchingEngine.Common.PriceText
import MatchingEngine.Book.FlatMap
import MatchingEngine.Book.FlatMapRefines
import MatchingEngine.Book.PriorityBook
import MatchingEngine.Book.Renaming
import MatchingEngine.Book.BookSteps
import MatchingEngine.Book.Queues
import MatchingEngine.Book.OrderBook
import MatchingEngine.Book.OrderBookRefines
import MatchingEngine.Book.FastBook
import MatchingEngine.Book.FastBookPool
import MatchingEngine.Book.FastBookLevels
import MatchingEngine.Book.FastBookBest
import MatchingEngine.Book.FastBookRefines
import MatchingEngine.Book.FastBookOps
import MatchingEngine.Book.FastBookQueries
import MatchingEngine.Book.WideLadder
import MatchingEngine.Book.Refinement
import MatchingEngine.Book.Replace
import MatchingEngine.Book.Liquidity
import MatchingEngine.Book.OrderBookChecks
import MatchingEngine.Book.FastBookChecks
import MatchingEngine.Book.Priority
import MatchingEngine.Ouch.Messages
import MatchingEngine.Ouch.Codec
import MatchingEngine.Ouch.Wire
import MatchingEngine.Engine.Engine
import MatchingEngine.Engine.Simulation
import MatchingEngine.Engine.Venue
import MatchingEngine.Engine.Entry
import MatchingEngine.Engine.Refines
import MatchingEngine.Engine.Tape
import MatchingEngine.Engine.Bookkeeping
import MatchingEngine.Engine.Accounting
import MatchingEngine.Engine.Fills
import MatchingEngine.Engine.Origins
import MatchingEngine.Engine.Mail
import MatchingEngine.Engine.Isolation
import MatchingEngine.Engine.MinQuantity
import MatchingEngine.Engine.Immediate
import MatchingEngine.Engine.Twins
import MatchingEngine.Engine.Spares
import MatchingEngine.Engine.Symbols
import MatchingEngine.Engine.Channel
import MatchingEngine.Engine.Ring
import MatchingEngine.Engine.Queue
import MatchingEngine.Itch.Codec
import MatchingEngine.Itch.Bijection
import MatchingEngine.Itch.RawItch
import MatchingEngine.Mold.Mold
import MatchingEngine.Mold.Parse
import MatchingEngine.Mold.Packetizer
import MatchingEngine.Mold.Gaps
import MatchingEngine.Feed.Publisher
import MatchingEngine.Feed.Locates
import MatchingEngine.Feed.Shutdown
import MatchingEngine.Feed.Capture
import MatchingEngine.Client.ItchBook
import MatchingEngine.Client.Consistency
import MatchingEngine.Client.LastTrade
import MatchingEngine.Client.Restrict
import MatchingEngine.Client.Viewer
import MatchingEngine.Client.FileProcessor
import MatchingEngine.Client.Listener
import MatchingEngine.Client.Replay
import MatchingEngine.Client.Monitor
import MatchingEngine.Soup.Session
import MatchingEngine.Soup.Frames
import MatchingEngine.Soup.Login
import MatchingEngine.Soup.Stream
import MatchingEngine.Soup.Lifecycle
import MatchingEngine.Soup.Heartbeat
import MatchingEngine.Gateway.Gateway
import MatchingEngine.Gateway.Connections
import MatchingEngine.Gateway.Risk
import MatchingEngine.Gateway.Outgoing
import MatchingEngine.Gateway.Delivery
import MatchingEngine.Gateway.Conversation
import MatchingEngine.Gateway.Wakeup
import MatchingEngine.Client.OuchClient
import MatchingEngine.Client.KeepAlive
import MatchingEngine.Exchange.Exchange
import MatchingEngine.Exchange.Mailroom
import MatchingEngine.Exchange.RoundTrip
import MatchingEngine.Exchange.Closing
import MatchingEngine.Exchange.Completion
import MatchingEngine.Exchange.Audience
