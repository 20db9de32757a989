import LinuxSgx.Aesm.ProvMsg2
import LinuxSgx.Aesm.Socket
import LinuxSgx.Aesm.Thread
import LinuxSgx.Aesm.Workers
import LinuxSgx.Common.Event
import LinuxSgx.Edger8r.Lengths
import LinuxSgx.KeyExchange.InFlight
import LinuxSgx.KeyExchange.Msg3
import LinuxSgx.LaunchEnclave.Control
import LinuxSgx.Loader.Elrange
import LinuxSgx.Loader.Image
import LinuxSgx.LocalAttest.Agreement
import LinuxSgx.LocalAttest.TargetInfo
import LinuxSgx.Parser.Dynamic
import LinuxSgx.Parser.Protection
import LinuxSgx.Parser.RelocBitmap
import LinuxSgx.ProtectedFs.MasterKey
import LinuxSgx.ProtectedFs.Numbering
import LinuxSgx.ProtectedFs.Position
import LinuxSgx.Pthread.Join
import LinuxSgx.Pthread.Keys
import LinuxSgx.Pthread.Once
import LinuxSgx.ReservedMem.Combined
import LinuxSgx.Sealing.RoundTrip
import LinuxSgx.Selib.Aligned
import LinuxSgx.Sethread.CondVars
import LinuxSgx.Sethread.Mutex
import LinuxSgx.Sethread.RwLock
import LinuxSgx.Switchless.Once
import LinuxSgx.Tlibc.Regions
import LinuxSgx.Trts.Ecall
import LinuxSgx.Trts.Exception
import LinuxSgx.Trts.Ocalloc
import LinuxSgx.Urts.EnclavePool
import LinuxSgx.Urts.UtilityThread
