import Veridie.Lib.OrdMap
import Veridie.Lib.KeySet
import Veridie.Lib.Machine
import Veridie.Lib.Descent
import Veridie.Lib.Network
import Veridie.Lib.Simulation
import Veridie.Base
import Veridie.Xml.Tokens
import Veridie.Xml.Pieces
import Veridie.Xml.Items
import Veridie.Xml.Cutting
import Veridie.Xml.Attributes
import Veridie.Xml.Element
import Veridie.Xml.Memory
import Veridie.Xml.Parser
import Veridie.Xml.Passes
import Veridie.Xml.RoundTrip
import Veridie.Xml.Documents
import Veridie.Xml.Safety
import Veridie.Xml.Comments
import Veridie.Xml.Reading
import Veridie.Xml.Transparent
import Veridie.Dice.Cast
import Veridie.Dice.Numbers
import Veridie.Dice.Serializer
import Veridie.Dice.RoundTrip
import Veridie.Dice.Safety
import Veridie.Dice.Exactness
import Veridie.Sign.Commands
import Veridie.Sign.Manager
import Veridie.Sign.Buffers
import Veridie.Utils.Format
import Veridie.Utils.Pool
import Veridie.Utils.PoolBuilder
import Veridie.Utils.Tasks
import Veridie.Utils.Nesting
import Veridie.Utils.Story
import Veridie.Utils.Canceling
import Veridie.Utils.Owner
import Veridie.Utils.Owning
import Veridie.Utils.AnyOf
import Veridie.Utils.FirstResult
import Veridie.Fsm.Context
import Veridie.Fsm.Idle
import Veridie.Fsm.Connecting
import Veridie.Fsm.Negotiating
import Veridie.Fsm.Playing
import Veridie.Fsm.Controller
import Veridie.Fsm.Runs
import Veridie.Fsm.Elected
import Veridie.Fsm.Offers
import Veridie.Fsm.Announce
import Veridie.Fsm.Election
import Veridie.Fsm.Leaving
import Veridie.Fsm.Transitions
import Veridie.Fsm.Generator
import Veridie.Fsm.Peer
import Veridie.Fsm.Ledger
import Veridie.Fsm.Requests
import Veridie.Fsm.Lengths
import Veridie.Fsm.Closing
import Veridie.Fsm.Window
import Veridie.Fsm.Returns
import Veridie.Fsm.Radio
import Veridie.Fsm.Roster
import Veridie.Fsm.Outliving
import Veridie.Fsm.Wire
import Veridie.Fsm.Events
import Veridie.Dispatch.Worker
import Veridie.Dispatch.Order
import Veridie.Dispatch.Lane
import Veridie.Dispatch.Bridge
import Veridie.Dispatch.Relay
import Veridie.Dispatch.Delivery
import Veridie.Dispatch.Invokers
