import SlotFs.RangeSlot
import SlotFs.SlotThreads
import SlotFs.VfsRefs
import SlotFs.ReplayThreads
import SlotFs.ReleaseSlots
import SlotFs.DataBlocks
import SlotFs.BtreeCalls
import SlotFs.InodePersist
import SlotFs.Mkfs
import SlotFs.RangeLock
import SlotFs.AppendCrash
import SlotFs.ArenaItems
import SlotFs.DirCrash
import SlotFs.DirNames
import SlotFs.HeapRuns
import SlotFs.LogRemoval
import SlotFs.RenameReplay
import SlotFs.NamespaceLocks
import SlotFs.RecoverCells
import SlotFs.InvalidCount
import SlotFs.NoSlot
import SlotFs.RecoverDirs
import SlotFs.ShrinkEnds
import SlotFs.NamespaceTree
import SlotFs.LookupEnds
import SlotFs.Interpose
import SlotFs.MapSplit
import SlotFs.DescriptorOffset
import SlotFs.StreamCopy
import SlotFs.FileContents
