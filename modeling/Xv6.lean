import Xv6.BlockOwnership
import Xv6.CleanFailure
import Xv6.CopyInStr
import Xv6.ExecFailure
import Xv6.ExecImage
import Xv6.ExitWait
import Xv6.FaultingReads
import Xv6.FaultingWrites
import Xv6.GetProcs
import Xv6.Grep
import Xv6.Holes
import Xv6.LinkCounts
import Xv6.LogAdmission
import Xv6.LogRecovery
import Xv6.MkfsAgreement
import Xv6.PipeFifo
import Xv6.PipeWakeups
import Xv6.Sbrk
import Xv6.ShRedir
import Xv6.SharedFile
import Xv6.SleepLock
import Xv6.HeapGrowth
import Xv6.VirtioProtocol
import Xv6.VmRefinement
import Xv6.Memmove
import Xv6.Pstree
import Xv6.SysSleep
import Xv6.PhysPages
import Xv6.NamesOnDisk
