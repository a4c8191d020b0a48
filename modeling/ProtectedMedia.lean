import ProtectedMedia.DecryptionModule.Scripted
import ProtectedMedia.Main
import ProtectedMedia.Media.Session
import ProtectedMedia.Proofs.Bytes.Blocks
import ProtectedMedia.Proofs.Bytes.Marks
import ProtectedMedia.Proofs.Bytes.Reader
import ProtectedMedia.Proofs.Bytes.Splice
import ProtectedMedia.Proofs.Bytes.Taken
import ProtectedMedia.Proofs.Bytes.Written
import ProtectedMedia.Proofs.Cipher.Keystream
import ProtectedMedia.Proofs.Cipher.Chain
import ProtectedMedia.Proofs.Cipher.PatternMarks
import ProtectedMedia.Proofs.RunningIv
import ProtectedMedia.Proofs.DecryptionModule.KeyStore
import ProtectedMedia.Proofs.Packet.Runs
import ProtectedMedia.Proofs.Packet.Ready
import ProtectedMedia.Proofs.Packet.SideData
import ProtectedMedia.Proofs.Packet.Attached
import ProtectedMedia.Proofs.Packet.CounterSchemes
import ProtectedMedia.Proofs.Packet.ChainedSchemes
import ProtectedMedia.Proofs.Packet.Outcome
import ProtectedMedia.Proofs.Packet.SplitRun
import ProtectedMedia.Proofs.Box.Header
import ProtectedMedia.Proofs.Box.Lenience
import ProtectedMedia.Proofs.Box.Forest
import ProtectedMedia.Proofs.Box.Framing
import ProtectedMedia.Proofs.Box.Nesting
import ProtectedMedia.Proofs.Box.Visits
import ProtectedMedia.Proofs.Box.Description
import ProtectedMedia.Proofs.Box.Moved
import ProtectedMedia.Proofs.Box.Framed
import ProtectedMedia.Proofs.Box.Tables
import ProtectedMedia.Proofs.Segment.Placement
import ProtectedMedia.Proofs.Segment.Samples
import ProtectedMedia.Proofs.Segment.Muxing
import ProtectedMedia.Proofs.Segment.Moved
import ProtectedMedia.Proofs.Segment.Portable
import ProtectedMedia.Proofs.Segment.Frame
import ProtectedMedia.Proofs.Segment.Concatenation
import ProtectedMedia.Proofs.Box.Succession
import ProtectedMedia.Proofs.Box.Effort
import ProtectedMedia.Proofs.Media.Lifecycle
import ProtectedMedia.Proofs.Media.Protocol
import ProtectedMedia.Proofs.Media.Events
import ProtectedMedia.Proofs.Media.Failure
import ProtectedMedia.Proofs.Media.Delivery
import ProtectedMedia.Proofs.Box.Cut
import ProtectedMedia.Proofs.Track.Found
import ProtectedMedia.Proofs.Track.Prefix
import ProtectedMedia.Proofs.Media.Registration
import ProtectedMedia.Proofs.Media.Isolation
import ProtectedMedia.Proofs.Media.Reopening
import ProtectedMedia.Proofs.Media.Handles
import ProtectedMedia.Proofs.DecryptionModule.Recorded
import ProtectedMedia.Proofs.Packet.Account
import ProtectedMedia.Proofs.Packet.Containment
import ProtectedMedia.Proofs.Packet.Accounting
import ProtectedMedia.Proofs.Packet.RunPositions
import ProtectedMedia.Proofs.Bytes.Xor
import ProtectedMedia.Proofs.Packet.Masking
import ProtectedMedia.Proofs.Cipher.PatternPieces
import ProtectedMedia.Proofs.DecryptionModule.Answers
import ProtectedMedia.Proofs.Packet.WholePayload
import ProtectedMedia.Proofs.Packet.Regrouping
import ProtectedMedia.Proofs.Media.ContentType
import ProtectedMedia.Proofs.Box.Replaced
import ProtectedMedia.Proofs.Box.Alone
import ProtectedMedia.Proofs.Segment.Fields
import ProtectedMedia.Proofs.Segment.Rearranged
import ProtectedMedia.Proofs.Media.Respelling
import ProtectedMedia.Proofs.CommandLine.TypeSupport
import ProtectedMedia.Proofs.CommandLine.Disk
import ProtectedMedia.Proofs.CommandLine.Decrypt
import ProtectedMedia.Proofs.Box.Unseen
import ProtectedMedia.Proofs.Track.Joined
import ProtectedMedia.Proofs.CommandLine.Joined
import ProtectedMedia.Proofs.Bytes.Advance
import ProtectedMedia.Proofs.DecryptionModule.Unskipped
import ProtectedMedia.Proofs.DecryptionModule.KeyText
import ProtectedMedia.Proofs.Media.Violations
import ProtectedMedia.Proofs.RunningIv.Growth
import ProtectedMedia.Proofs.Box.Announced
import ProtectedMedia.Proofs.Box.RunTable
import ProtectedMedia.Proofs.DecryptionModule.Additions
import ProtectedMedia.Proofs.DecryptionModule.Built
