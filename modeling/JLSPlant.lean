import JLSPlant.Hooking
import JLSPlant.HookingSteps
import JLSPlant.RegistryFrame
import JLSPlant.HookMap
import JLSPlant.Acceptance
import JLSPlant.Interleaving
import JLSPlant.HookWindow
import JLSPlant.RegistryMirror
import JLSPlant.Binary
import JLSPlant.Elf
import JLSPlant.ElfImg
import JLSPlant.SectionScan
import JLSPlant.Lookup
import JLSPlant.SymbolAddress
import JLSPlant.Pairing
import JLSPlant.IoWrapper
import JLSPlant.MakeRwx
import JLSPlant.Loops
import JLSPlant.ScanLatch
import JLSPlant.HashTables
import JLSPlant.Resolver
import JLSPlant.Totality
import JLSPlant.ModuleBase
import JLSPlant.Construction
import JLSPlant.Commits
import JLSPlant.Linearization
import JLSPlant.Code
import JLSPlant.OnLoad
import JLSPlant.Link
import JLSPlant.Startup
import JLSPlant.Protocol
import JLSPlant.SystemCalls
import JLSPlant.Process
import JLSPlant.Procedures
import JLSPlant.Transparency
