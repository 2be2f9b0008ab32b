import QuillOS.Lib.Run
import QuillOS.Lib.Slots
import QuillOS.Lib.Access
import QuillOS.Lib.LittleEndian
import QuillOS.Lib.Machine
import QuillOS.Lib.PathTree
import QuillOS.Lib.ByteMemory
import QuillOS.Lib.Records
import QuillOS.Lib.Tiling
import QuillOS.Lib.Ring
import QuillOS.Lib.RoundRobin
import QuillOS.Lib.OnesComplement
import QuillOS.Lib.Raster
import QuillOS.Lib.Stack
import QuillOS.Lib.Medium
import QuillOS.Scheduler.Model
import QuillOS.Scheduler.Invariant
import QuillOS.Scheduler.Selection
import QuillOS.Scheduler.Fairness
import QuillOS.Scheduler.Tasks
import QuillOS.Scheduler.Load
import QuillOS.Scheduler.Sleep
import QuillOS.Scheduler.Kill
import QuillOS.Scheduler.Context
import QuillOS.Network.Model
import QuillOS.Network.Bounds
import QuillOS.Network.Send
import QuillOS.Network.RoundTrip
import QuillOS.Network.Frames
import QuillOS.Network.Lan
import QuillOS.Network.Delivery
import QuillOS.Network.Hosts
import QuillOS.Network.Lengths
import QuillOS.Network.Arp
import QuillOS.Network.Checksum
import QuillOS.Filesystem.Path
import QuillOS.Filesystem.Model
import QuillOS.Filesystem.Orphans
import QuillOS.Filesystem.Atomic
import QuillOS.Filesystem.Names
import QuillOS.Filesystem.Canonical
import QuillOS.Filesystem.Refinement
import QuillOS.Filesystem.LongNames
import QuillOS.Filesystem.Contents
import QuillOS.Filesystem.Listing
import QuillOS.Filesystem.Log
import QuillOS.Cluster.Wire
import QuillOS.Cluster.Jobs
import QuillOS.Cluster.Primes
import QuillOS.Cluster.Balance
import QuillOS.Cluster.Results
import QuillOS.Cluster.History
import QuillOS.Cluster.Process
import QuillOS.Cluster.Messages
import QuillOS.Cluster.RemoteKill
import QuillOS.Cluster.Peers
import QuillOS.Cluster.Heartbeat
import QuillOS.Cluster.LoadReports
import QuillOS.Cluster.Datagram
import QuillOS.Cluster.Consistency
import QuillOS.Cluster.Tables
import QuillOS.Cluster.Membership
import QuillOS.Memory.Model
import QuillOS.Memory.Blocks
import QuillOS.Memory.Bitmap
import QuillOS.Memory.Heap
import QuillOS.Memory.Alloc
import QuillOS.Memory.Init
import QuillOS.Memory.Safety
import QuillOS.Memory.Tidy
import QuillOS.Memory.Placement
import QuillOS.Memory.PageAllocator
import QuillOS.Memory.Pages
import QuillOS.Memory.FirstFit
import QuillOS.Memory.Failure
import QuillOS.Memory.Requests
import QuillOS.Memory.DoubleFree
import QuillOS.Memory.Strung
import QuillOS.Memory.FreePages
import QuillOS.E1000.Model
import QuillOS.E1000.Transmit
import QuillOS.E1000.Receive
import QuillOS.Console.Font
import QuillOS.Console.Model
import QuillOS.Console.Bounds
import QuillOS.Console.Backspace
import QuillOS.Console.Screen
import QuillOS.Console.Text
import QuillOS.Input.Mouse
import QuillOS.Disk.Model
import QuillOS.Shell.Users
import QuillOS.Shell.Signup
import QuillOS.Disk.Persistence
import QuillOS.Disk.Ata
import QuillOS.Shell.Model
import QuillOS.Shell.Editor
import QuillOS.Shell.Gate
import QuillOS.Shell.Files
import QuillOS.Shell.Copies
import QuillOS.Shell.RunCommand
import QuillOS.Shell.Console
import QuillOS.Shell.Echo
import QuillOS.Shell.Keys
import QuillOS.Shell.FileCommands
import QuillOS.Shell.TreeSession
import QuillOS.Boot.Model
import QuillOS.Boot.Accounts
import QuillOS.Boot.Modifiers
import QuillOS.Boot.Typing
import QuillOS.Utils.Decimal
import QuillOS.Serial.Lines
import QuillOS.Interrupts.Model
import QuillOS.Interrupts.Entry
import QuillOS.Interrupts.Switching
import QuillOS.Interrupts.Lines
