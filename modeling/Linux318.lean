import Linux318.Guarantees.Ext4Buddy
import Linux318.Guarantees.ExtentStatus
import Linux318.Guarantees.F2fsTruncate
import Linux318.Guarantees.Flock
import Linux318.Guarantees.PageAlloc
import Linux318.Guarantees.IntervalTree
import Linux318.Guarantees.ListSort
import Linux318.Guarantees.LogBuf
import Linux318.Guarantees.Memblock
import Linux318.Guarantees.PcpuMap
import Linux318.Guarantees.PercpuIda
import Linux318.Guarantees.PosixDeadlock
import Linux318.Guarantees.PosixLocks
import Linux318.Guarantees.Rbtree
import Linux318.Guarantees.Semaphores
import Linux318.Guarantees.UserNs
import Linux318.Guarantees.VmapArea
import Linux318.Guarantees.UnmappedArea
import Linux318.Guarantees.Munmap
import Linux318.Guarantees.VmaMerge
import Linux318.Guarantees.Ext4Convert
import Linux318.Guarantees.Resource
import Linux318.Guarantees.Bitmap
import Linux318.Guarantees.LeafCheck
import Linux318.Guarantees.LruCreate
import Linux318.Guarantees.ReciprocalDiv
import Linux318.Guarantees.NodeNumber
import Linux318.Guarantees.FreePages
import Linux318.Guarantees.VmaMergeNull
