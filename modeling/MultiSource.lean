import MultiSource.Number
import MultiSource.Sandbox
import MultiSource.PathAlgebra
import MultiSource.Identity
import MultiSource.Roots
import MultiSource.Lexical
import MultiSource.Routes
import MultiSource.Ancestors
import MultiSource.Remembered
import MultiSource.Reports
import MultiSource.Published
import MultiSource.Failures
import MultiSource.Independence
import MultiSource.Sink
import MultiSource.Preloaded
import MultiSource.Scanned
import MultiSource.MergeLaws
import MultiSource.Overlays
import MultiSource.Ts.Pkg
import MultiSource.Ts.File
import MultiSource.Go.Chains
import MultiSource.Go.Nesting
import MultiSource.Ports.Bases
import MultiSource.Ports.MemMap
import MultiSource.Ports.Names
import MultiSource.Ports.ReadBack
import MultiSource.Ports.Layouts
import MultiSource.Ports.Packages
import MultiSource.Ports.Files
import MultiSource.Go.Dependencies
import MultiSource.Ports.Canonical
import MultiSource.Go.Handles
import MultiSource.Go.Preload
import MultiSource.Go.Emission
import MultiSource.Stacks
import MultiSource.Footprint
import MultiSource.Associativity
