import HddChecker.Lib.Prog
import HddChecker.Lib.PowerLoss
import HddChecker.Lib.SplitLog
import HddChecker.Apa.Header
import HddChecker.Apa.Device
import HddChecker.Apa.Flush
import HddChecker.Apa.Crash
import HddChecker.Apa.View
import HddChecker.Apa.Partition
import HddChecker.Apa.Table
import HddChecker.Apa.Steady
import HddChecker.Apa.Refs
import HddChecker.Apa.Cache
import HddChecker.Apa.Coherent
import HddChecker.Apa.Buddies
import HddChecker.Apa.Delete
import HddChecker.Apa.Deletion
import HddChecker.Apa.Hidden
import HddChecker.Apa.Truthful
import HddChecker.Apa.Format
import HddChecker.Apa.Restore
import HddChecker.Hdsk.Thread
import HddChecker.Hdsk.Users
import HddChecker.Hdsk.Removal
import HddChecker.Hdsk.Copy
import HddChecker.Hdsk.Swap
import HddChecker.Hdsk.Move
import HddChecker.Hdsk.PowerCut
import HddChecker.Hdsk.Games
import HddChecker.Hdsk.Failure
import HddChecker.Hdsk.Split
import HddChecker.Hdsk.Sim
import HddChecker.Hdsk.FreeSectors
import HddChecker.Hdsk.Reports
import HddChecker.Hdsk.Driver
import HddChecker.Hdsk.Machine
import HddChecker.Hdsk.FrontEnd
import HddChecker.Ui.Menu
import HddChecker.Ui.System
import HddChecker.Ui.Font
import HddChecker.Ui.Language
import HddChecker.Hdst.SurfScan
import HddChecker.Hdst.Coverage
import HddChecker.Hdst.Unattended
import HddChecker.Hdst.Device
import HddChecker.Hdst.Verify
import HddChecker.Fsck.FrontEnd
import HddChecker.Fsck.Bitmap
import HddChecker.Lib.FreeRing
import HddChecker.Fsck.Pages
import HddChecker.Fsck.Accesses
import HddChecker.Fsck.Zones
import HddChecker.Fsck.Check
import HddChecker.Fsck.Counters
import HddChecker.Fsck.Contents
import HddChecker.Fsck.Bounds
import HddChecker.Fsck.FileBitmap
import HddChecker.Fsck.Compare
import HddChecker.Fsck.Session
import HddChecker.Fsck.Lookups
import HddChecker.Fssk.Move
import HddChecker.Fssk.Relocate
import HddChecker.Fssk.Preserved
import HddChecker.Fssk.FreeInode
import HddChecker.Fssk.Space
import HddChecker.Fssk.Avoid
import HddChecker.Fssk.Position
import HddChecker.Fssk.Traversal
import HddChecker.Lib.BitWalk
import HddChecker.Lib.Commands
import HddChecker.Hdck.Repair
import HddChecker.Hdck.Law
import HddChecker.Hdck.Frame
import HddChecker.Hdck.Keep
import HddChecker.Hdck.Links
import HddChecker.Hdck.Gap
import HddChecker.Hdck.FreeSpace
import HddChecker.Hdck.LinkCheck
import HddChecker.Hdck.Backward
import HddChecker.Pfs.Bitmap
import HddChecker.Pfs.Search
import HddChecker.Pfs.Journal
import HddChecker.Pfs.Cache
import HddChecker.Pfs.Coherent
import HddChecker.Pfs.Crash
import HddChecker.Pfs.Restore
import HddChecker.Pfs.Mount
import HddChecker.Pfs.Adopt
import HddChecker.Fsck.Open
import HddChecker.Fsck.Reservation
import HddChecker.Fsck.Refused
import HddChecker.Fsck.ReadOnly
import HddChecker.Lib.Signed
import HddChecker.Lib.Dyadic
import HddChecker.Lib.Ring
import HddChecker.Apa.Cipher
import HddChecker.Fsck.Directories
import HddChecker.Pfs.Create
import HddChecker.Pfs.Listing
import HddChecker.Pfs.Tree
import HddChecker.Pfs.References
