import AgenticOS.Capability.Revocation
import AgenticOS.Capability.AuditTrail
import AgenticOS.Ipc.Rendezvous
import AgenticOS.Kernel.FileAuthority
import AgenticOS.Kernel.ServiceAtomicity
import AgenticOS.Kernel.ServiceOwnership
import AgenticOS.Kernel.AmbientAuthority
import AgenticOS.Authority.Certificate
import AgenticOS.Memory.PmmOwnership
import AgenticOS.Memory.PageMap
import AgenticOS.Memory.KernelHalf
import AgenticOS.Authority.Process
import AgenticOS.Authority.Device
import AgenticOS.Memory.ElfImage
import AgenticOS.Smp.Reaping
import AgenticOS.Smp.Shootdown
import AgenticOS.Memory.HeapSafety
import AgenticOS.Update.DualBank
import AgenticOS.Update.Package
import AgenticOS.Net.TcpStream
import AgenticOS.Driver.Answers
import AgenticOS.Fs.Arithmetic
import AgenticOS.Fs.AuditRing
import AgenticOS.Fs.Lookups
import AgenticOS.Fs.Crash
import AgenticOS.Boot.Loader
import AgenticOS.Capability.CryptoStore
import AgenticOS.Kernel.Lifecycle
import AgenticOS.Kernel.Installer
import AgenticOS.Kernel.HardwareRevocation
import AgenticOS.Desktop.Animation
import AgenticOS.Desktop.Clicks
import AgenticOS.Desktop.FramePacing
import AgenticOS.Desktop.InputRouting
import AgenticOS.Kernel.Supervisor
import AgenticOS.Net.Arp
import AgenticOS.Net.Routing
