import Conduit.Bytes
import Conduit.Buffer.Segment
import Conduit.Buffer.Queue
import Conduit.Buffer.Basic
import Conduit.Time.Duration
import Conduit.Time.Clock
import Conduit.Base64.Alphabet
import Conduit.Base64.Engine
import Conduit.Error.Io
import Conduit.Error.Basic
import Conduit.Host.Event
import Conduit.Host.Contents
import Conduit.Host.Path
import Conduit.Host.Disk
import Conduit.Host.Basic
import Conduit.Host.Timeout
import Conduit.Request
import Conduit.Channel.Basic
import Conduit.Endpoint
import Conduit.Channel.Source
import Conduit.Channel.Sink
import Conduit.File.Source
import Conduit.File.Sink
import Conduit.Memory.Source
import Conduit.Memory.Sink
import Conduit.Script.Source
import Conduit.Script.Sink
import Conduit.Script.Results
import Conduit.Cipher.Basic
import Conduit.Cipher.Block
import Conduit.Cipher.Padding
import Conduit.Cipher.Cbc
import Conduit.Cipher.Aes
import Conduit.Cipher.Scripted
import Conduit.Cipher.Any
import Conduit.Layer
import Conduit.Base64.Source
import Conduit.Base64.Sink
import Conduit.Cipher.Sink
import Conduit.Cipher.Source
import Conduit.Stack.Layer
import Conduit.Stack.Source
import Conduit.Stack.Sink
import Conduit.Transfer
import Conduit.Proofs.Receiving
import Conduit.Proofs.Base64.Steps
import Conduit.Proofs.Base64.Ledger
import Conduit.Proofs.Cipher.Ledger
import Conduit.Proofs.Cipher.Recording
import Conduit.Proofs.Sending
import Conduit.Proofs.RoundTrip
import Conduit.Proofs.Base64.OnDemand
import Conduit.Proofs.Base64.Language
import Conduit.Proofs.Resuming
import Conduit.Proofs.Requests
import Conduit.Proofs.Closing
import Conduit.Proofs.Buffer.Blocks
import Conduit.Proofs.Buffer.Contents
import Conduit.Proofs.Buffer.Representation
import Conduit.Proofs.Buffer.Lending
import Conduit.Proofs.Contract
import Conduit.Proofs.Deadlines
import Conduit.Proofs.Malformed
import Conduit.Proofs.Repeating
import Conduit.Proofs.Disks
import Conduit.Proofs.FileEnd
import Conduit.Proofs.Keeping
import Conduit.Proofs.Farewell
import Conduit.Proofs.Inert
import Conduit.Proofs.Cipher.Protocol
import Conduit.Proofs.Metering
import Conduit.Proofs.Release
import Conduit.Proofs.Cipher.Feeding
import Conduit.Proofs.Cipher.OnDemand
import Conduit.Proofs.Offers
import Conduit.Proofs.Asking
import Conduit.Proofs.SharedFiles
import Conduit.Proofs.Watching
import Conduit.Proofs.Base64.Residue
import Conduit.Proofs.Cipher.Surplus
import Conduit.Proofs.Moving
import Conduit.Proofs.Retaining
import Conduit.Proofs.Buffer.Density
import Conduit.Proofs.Buffer.Layout
import Conduit.Proofs.Base64.Quanta
import Conduit.Proofs.Base64.Encoding
