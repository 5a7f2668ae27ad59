import SimpleDatabase.Kernel.Pairing
import SimpleDatabase.Kernel.RecordAccess
import SimpleDatabase.Kernel.Join
import SimpleDatabase.Kernel.FileLength
import SimpleDatabase.Kernel.Scan
import SimpleDatabase.InMemory.Depth
import SimpleDatabase.InMemory.Sessions
import SimpleDatabase.InMemory.Typed
