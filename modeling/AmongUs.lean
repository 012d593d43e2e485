import AmongUs.Transition.Machine
import AmongUs.Bytes.LittleEndian
import AmongUs.Networking.Message
import AmongUs.Networking.Reader
import AmongUs.Networking.Writer
import AmongUs.Networking.Framing
import AmongUs.Client.Requests
import AmongUs.Relay
import AmongUs.GameInstance
import AmongUs.Server.Standing
import AmongUs.Server.Supervision
import AmongUs.Server.Registration
import AmongUs.Server.Heartbeat
import AmongUs.Server.TickPhases
import AmongUs.Server.StatusLock
import AmongUs.Server.Update
import AmongUs.Client.HandleNetworking
import AmongUs.PopBounds
import AmongUs.Server.Propagation
import AmongUs.System.Machine
import AmongUs.System.Agreement
import AmongUs.System.Channels
import AmongUs.System.Delivery
import AmongUs.System.Joining
import AmongUs.Replies
import AmongUs.System.Handshake
import AmongUs.Arithmetic.Extended
import AmongUs.Geometry.Slab
import AmongUs.Geometry.V2d
import AmongUs.Networking.Pump
import AmongUs.Networking.TsQueue
import AmongUs.Collision.RayVsRect
import AmongUs.Collision.Dynamic
import AmongUs.Collision.ResolveCollision
import AmongUs.Collision.Frame
import AmongUs.Collision.Contacts
import AmongUs.Collision.MoveEnd
import AmongUs.Collision.Turned
import AmongUs.Collision.Penetration
import AmongUs.Collision.Neighbours
import AmongUs.Map.MapDict
import AmongUs.Map.Designer
import AmongUs.Collision.OneWall
import AmongUs.Collision.Shortening
import AmongUs.Containers.NodeMap
import AmongUs.Server.Broadcast
import AmongUs.Map.Reload
import AmongUs.Networking.Disconnect
import AmongUs.Server.Notices
import AmongUs.Collision.Lines
import AmongUs.Collision.Ties
import AmongUs.Networking.AsyncReads
import AmongUs.Networking.BodyStack
import AmongUs.Database
import AmongUs.Server.MessageClient
import AmongUs.Geometry.Winding
import AmongUs.Rendering.Cube
import AmongUs.Server.UpdateCalls
import AmongUs.Collision.Landing
import AmongUs.Client.RenderGameFg
import AmongUs.Json.Decoder
import AmongUs.Json.Escaping
import AmongUs.Json.Grammar
import AmongUs.Json.Numbers
import AmongUs.Json.RoundTrip
import AmongUs.Networking.Link
import AmongUs.System.Documents
import AmongUs.System.EndToEnd
import AmongUs.Json.Access
import AmongUs.Map.Document
import AmongUs.Map.Session
import AmongUs.Geometry.Facets
import AmongUs.Networking.QueueRest
import AmongUs.Rendering.Depth
import AmongUs.Client.DesignedMap
import AmongUs.Networking.LinkRest
import AmongUs.System.Rest
