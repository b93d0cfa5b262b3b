import LitmusHarness.Vmm.Map
import LitmusHarness.Vmm.Codec
import LitmusHarness.Re
import LitmusHarness.Hashlib
import LitmusHarness.Concretization.InitVar
import LitmusHarness.Concretization.Concretizable
import LitmusHarness.Concretization.Separation
import LitmusHarness.Concretization.WellPlaced
import LitmusHarness.Concretization.Batch
import LitmusHarness.Sync.Rounds
import LitmusHarness.Sync.Lamport
import LitmusHarness.Runner.Results
import LitmusHarness.Runner.Restore
import LitmusHarness.Valloc.Safety
import LitmusHarness.Runner.RunLoop
import LitmusHarness.Vmm.Tiling
import LitmusHarness.Vmm.Unmap
import LitmusHarness.Concretization.Fixed
import LitmusHarness.Translator.Assert
import LitmusHarness.Sync.RemoteRuns
import LitmusHarness.Hash.Identity
import LitmusHarness.Device.Lookup
import LitmusHarness.Device.Search
import LitmusHarness.Device.Nop
import LitmusHarness.Translator.Consistent
import LitmusHarness.Valloc.Realloc
import LitmusHarness.Vmm.RegionMap
import LitmusHarness.Concretization.Retries
import LitmusHarness.Runner.LutBounds
import LitmusHarness.Runner.Printing
import LitmusHarness.Concretization.Undeclared
import LitmusHarness.Concretization.AliasOffset
import LitmusHarness.Runner.Asid
import LitmusHarness.Runner.Options
import LitmusHarness.Runner.RunData
import LitmusHarness.Hash.Scan
import LitmusHarness.Hash.Total
import LitmusHarness.Exceptions.Dispatch
import LitmusHarness.Exceptions.Handlers
import LitmusHarness.Exceptions.Pagefault
import LitmusHarness.Device.Layout
import LitmusHarness.Device.Testdata
import LitmusHarness.Frontend.ArgBounds
import LitmusHarness.Frontend.Args
import LitmusHarness.Frontend.Config
import LitmusHarness.Frontend.LongOptions
import LitmusHarness.Frontend.Select
import LitmusHarness.Vmm.WalkTable
import LitmusHarness.Valloc.Queries
import LitmusHarness.Exceptions.Stack
import LitmusHarness.Frontend.RunCount
import LitmusHarness.Runner.Time
import LitmusHarness.Frontend.Seed
import LitmusHarness.Base64
import LitmusHarness.Valloc.Lists
import LitmusHarness.Runner.CtxLeak
import LitmusHarness.Sync.Mutex
import LitmusHarness.Runner.LogRoundTrip
import LitmusHarness.Vmm.HarnessMap
import LitmusHarness.Runner.ResultsOnce
