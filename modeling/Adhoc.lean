import Adhoc.Main
import Adhoc.Proofs.CallCounts
import Adhoc.Proofs.CompoundAssignment
import Adhoc.Proofs.InlineNames
import Adhoc.Proofs.Interning
import Adhoc.Proofs.LocalSizes
import Adhoc.Proofs.ModuleSearch
import Adhoc.Proofs.ParameterSlots
import Adhoc.Proofs.Redefinition
import Adhoc.Proofs.Shadowing
import Adhoc.Proofs.Splicing
import Adhoc.Proofs.StackBalance
import Adhoc.Proofs.StackPaths
import Adhoc.Proofs.StringConstants
import Adhoc.Proofs.SubroutineExits
import Adhoc.Proofs.TreeCodec
import Adhoc.Proofs.VersionGroups
import Adhoc.Proofs.WarningsAndModules
import Adhoc.Version.Json
