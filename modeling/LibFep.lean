import LibFep.Lib.Word32
import LibFep.Lib.Runs
import LibFep.Lib.NodeHeap
import LibFep.Lib.ControlSequence
import LibFep.Lib.ControlParser
import LibFep.Lib.LastWrite
import LibFep.Lib.LastMatch
import LibFep.Lib.Fitting
import LibFep.Lib.Segments
import LibFep.Lib.CellScreen
import LibFep.Lib.Sweep
import LibFep.Platform
import LibFep.Control.Message
import LibFep.Control.Wire
import LibFep.Control.RoundTrip
import LibFep.Control.MessageList
import LibFep.Control.ReadSequence
import LibFep.Control.Fragments
import LibFep.Control.ReadCalls
import LibFep.Control.EndOfStream
import LibFep.Control.ShortWrites
import LibFep.Control.HostOrder
import LibFep.Control.AttributeArg
import LibFep.Text.FepString
import LibFep.Text.Split
import LibFep.Text.SplitJoin
import LibFep.Text.SplitSet
import LibFep.Text.Locale
import LibFep.Text.Encoding
import LibFep.Text.Utf8
import LibFep.Text.Truncate
import LibFep.Term.Csi
import LibFep.Term.CsiScan
import LibFep.Term.CsiGrammar
import LibFep.Term.Sgr
import LibFep.Term.Output
import LibFep.Term.PtyOutput
import LibFep.Term.CursorQuery
import LibFep.Term.Sent
import LibFep.Term.Blanking
import LibFep.Term.ChildOutput
import LibFep.Term.CursorPosition
import LibFep.Term.TrackedCursor
import LibFep.Term.Accumulate
import LibFep.Term.Rendition
import LibFep.Term.SgrCodes
import LibFep.Term.SgrRoundTrip
import LibFep.Term.RenderedText
import LibFep.Term.TextPieces
import LibFep.Term.Overread
import LibFep.Term.CellTerminal
import LibFep.Term.VtTerminal
import LibFep.Input.Key
import LibFep.Input.KeyDecode
import LibFep.Input.KeyAssertion
import LibFep.Input.KeyLoop
import LibFep.Input.Capabilities
import LibFep.Input.KeyRoundTrip
import LibFep.Client.Requests
import LibFep.Client.Dispatch
import LibFep.Client.Answers
import LibFep.Client.GClient
import LibFep.Server.ClientTable
import LibFep.Server.ClientRuns
import LibFep.Server.Rounds
import LibFep.Server.UnknownCommand
import LibFep.Server.Transceive
import LibFep.Server.HandlerFaults
import LibFep.Server.Handlers
import LibFep.Server.PartialWrites
import LibFep.Server.Geometry
import LibFep.Server.Signals
import LibFep.Server.Overlays
import LibFep.Server.CStrings
import LibFep.Server.ControlSocket
import LibFep.Server.ClearScreen
import LibFep.Server.ChunkCut
import LibFep.Server.Padding
import LibFep.Server.Transparency
import LibFep.Server.SharedScreen
import LibFep.Protocol.Broadcast
import LibFep.Protocol.Delivery
import LibFep.Protocol.Progress
import LibFep.Protocol.Session
import LibFep.Protocol.Agreement
import LibFep.Protocol.Rest
import LibFep.Protocol.OverBytes
import LibFep.Protocol.ChildInput
import LibFep.Protocol.Sockets
