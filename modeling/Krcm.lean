import Krcm.Base.Outcome
import Krcm.Base.Bytes
import Krcm.Base.Undo
import Krcm.Base.Shuffle
import Krcm.Base.Uniform
import Krcm.Base.Newton
import Krcm.Base.Collect
import Krcm.Base.Layout
import Krcm.Base.Text
import Krcm.Base.Trace
import Krcm.Base.Files
import Krcm.Env
import Krcm.Cli.AtomicWrite
import Krcm.Cli.Overwrite
import Krcm.Py.Cli
import Krcm.Stream
import Krcm.Words
import Krcm.Matrix
import Krcm.Block
import Krcm.Separation
import Krcm.Kdf
import Krcm.Blocks
import Krcm.Layers
import Krcm.Padding
import Krcm.V5.Header
import Krcm.V5.Inner
import Krcm.V5.InnerExact
import Krcm.V5.Table
import Krcm.V5.Segments
import Krcm.V5.Container
import Krcm.V5.Opening
import Krcm.V5.Sealing
import Krcm.V5.Canonical
import Krcm.V5.Transcript
import Krcm.V5.TwoRuns
import Krcm.V5.Hiding
import Krcm.V5.Seeds
import Krcm.V5.Layout
import Krcm.V5.SegmentSize
import Krcm.V4.Header
import Krcm.V4.Container
import Krcm.V4.Transcript
import Krcm.V4.Canonical
import Krcm.V4.Acceptance
import Krcm.Auto
import Krcm.Safety
import Krcm.Py.Runtime
import Krcm.Py.Sampling
import Krcm.Py.Matrix
import Krcm.Py.Block
import Krcm.Uniform
import Krcm.Py.Affine
import Krcm.Py.Blocks
import Krcm.Py.Text
import Krcm.Py.Json
import Krcm.Py.Header
import Krcm.Py.Container
import Krcm.Py.Errors
import Krcm.Py.Reader
import Krcm.Py.Compact
import Krcm.Py.Legacy
import Krcm.Base.Replace
import Krcm.Cli.Arguments
import Krcm.Cli.Command
import Krcm.Cli.Process
import Krcm.Cli.Sessions
import Krcm.Locality
import Krcm.Base.Sweep
import Krcm.Model
import Krcm.Py.Utf8
import Krcm.Py.Interchange
import Krcm.Py.Store
import Krcm.Base.PrefixCode
import Krcm.Prefix
import Krcm.Integrity
import Krcm.Py.Concatenation
import Krcm.Py.Kdf
import Krcm.V5.Exact
import Krcm.Drafts
import Krcm.Py.Main
