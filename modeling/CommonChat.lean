import CommonChat.Foundation.Transition
import CommonChat.Foundation.Broker
import CommonChat.Foundation.Agreement
import CommonChat.Foundation.InsertionMap
import CommonChat.Foundation.Text
import CommonChat.Foundation.LinearMemory
import CommonChat.Foundation.Hex
import CommonChat.Foundation.Leb128
import CommonChat.Foundation.Format
import CommonChat.Foundation.Value
import CommonChat.Core.UnionUnique
import CommonChat.Core.Varint
import CommonChat.Core.Identity
import CommonChat.Core.Codec
import CommonChat.Core.Collections
import CommonChat.Relay.Server
import CommonChat.Relay.Registry
import CommonChat.Relay.Survival
import CommonChat.Relay.Independence
import CommonChat.Frontend.Message
import CommonChat.Frontend.Sidebar
import CommonChat.Frontend.SidebarOrder
import CommonChat.Frontend.Tab
import CommonChat.Frontend.Glue
import CommonChat.Frontend.Exports
import CommonChat.Frontend.Handles
import CommonChat.Frontend.Clients
import CommonChat.Frontend.Runs
import CommonChat.Frontend.Lists
import CommonChat.Frontend.PeerId
import CommonChat.Frontend.Peers
import CommonChat.Frontend.Admission
import CommonChat.Frontend.Authenticity
import CommonChat.Frontend.Copies
import CommonChat.Frontend.Suspended
import CommonChat.Frontend.Duplicates
import CommonChat.Frontend.Views
import CommonChat.Frontend.Unread
import CommonChat.Frontend.Display
import CommonChat.Frontend.Typing
import CommonChat.Frontend.StoredKey
import CommonChat.Frontend.History
import CommonChat.Network.World
import CommonChat.Network.Wiring
import CommonChat.Network.Routing
import CommonChat.Network.Presence
import CommonChat.Network.Names
import CommonChat.Network.Roster
import CommonChat.Network.Typing
import CommonChat.Network.Direct
import CommonChat.Network.Transit
import CommonChat.Network.Reading
import CommonChat.Network.Rename
import CommonChat.Network.Delivery
import CommonChat.Network.Settling
import CommonChat.Network.Novelty
import CommonChat.Network.Notices
import CommonChat.Network.Order
import CommonChat.Network.Replay
import CommonChat.Network.Secrecy
import CommonChat.Frontend.Alike
