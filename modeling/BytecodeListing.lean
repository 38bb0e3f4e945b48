import BytecodeListing.Files.Planting
import BytecodeListing.Main
import BytecodeListing.Text.Utf8
import BytecodeListing.Proofs.Segments
import BytecodeListing.Proofs.Offsets
import BytecodeListing.Proofs.Declared
import BytecodeListing.Proofs.Digits
import BytecodeListing.Proofs.Mnemonics
import BytecodeListing.Proofs.Lossless
import BytecodeListing.Proofs.Boundaries
import BytecodeListing.Proofs.Reachability
import BytecodeListing.Proofs.JumpTargets
import BytecodeListing.Proofs.Splicing
import BytecodeListing.Proofs.Resumption
import BytecodeListing.Proofs.Growth
import BytecodeListing.Proofs.InertOperands
import BytecodeListing.Proofs.Rotation
import BytecodeListing.Proofs.Holdings
import BytecodeListing.Proofs.Losses
import BytecodeListing.Proofs.Agreement
import BytecodeListing.Proofs.Arguments
import BytecodeListing.Proofs.Pieces
import BytecodeListing.Proofs.Session
import BytecodeListing.Proofs.Truncation
import BytecodeListing.Proofs.Neighbours
import BytecodeListing.Proofs.Endings
import BytecodeListing.Proofs.Accounting
import BytecodeListing.Proofs.Arrivals
import BytecodeListing.Proofs.Startup
import BytecodeListing.Proofs.Ensuring
import BytecodeListing.Proofs.Settling
import BytecodeListing.Proofs.CodeArgument
import BytecodeListing.Proofs.Essentials
import BytecodeListing.Proofs.LogStyle
import BytecodeListing.Proofs.Footprint
import BytecodeListing.Proofs.Counters
import BytecodeListing.Proofs.Rejection
import BytecodeListing.Proofs.Requests
import BytecodeListing.Proofs.Reading
import BytecodeListing.Proofs.Words
