import Panthera.Cache.SlideInfo
import Panthera.Dyld.Segments
import Panthera.Dyld.TrieReads
import Panthera.Fixups.ImportFormats
import Panthera.Dyld.Coalesce
import Panthera.Dyld.Closure
import Panthera.Cache.SymbolAddr
import Panthera.Xpc.Messages
import Panthera.Xpc.Payloads
import Panthera.Configd.Primary
import Panthera.Configd.Patterns
import Panthera.Configd.Watching
import Panthera.Configd.Statuses
import Panthera.Xpc.Equal
import Panthera.Xpc.Counts
import Panthera.Boot.Lookups
import Panthera.Boot.Tokens
import Panthera.Boot.HandOff
import Panthera.Boot.RuntimePages
import Panthera.Cache.Output
import Panthera.Cache.Simple
import Panthera.Cache.Reexports
import Panthera.Launchd.Plist
import Panthera.Libsystem.Dlsym
import Panthera.Libsystem.ExactPaths
import Panthera.Libsystem.Popen
import Panthera.Libsystem.Leb128
import Panthera.Libsystem.Tlv
import Panthera.Storage.Transfer
import Panthera.Storage.GptImage
import Panthera.Cache.TextScan
import Panthera.Corecrypto.Uniform
