import MyJQL.BufferPool.Client
import MyJQL.HashMap.Multimap
import MyJQL.Table.Map
import MyJQL.Str.RoundTrip
import MyJQL.Lib.BPlusTree.Delete
import MyJQL.BTree.Insert
import MyJQL.BTree.Search
import MyJQL.Server.Close
import MyJQL.Server.Lengths
import MyJQL.Server.Segments
import MyJQL.Server.Shutdown
import MyJQL.BTree.Root
import MyJQL.BufferPool.Recency
import MyJQL.HashMap.Pages
import MyJQL.BTree.Index
import MyJQL.Lib.BPlusTree.Rename
import MyJQL.Shell.ReadInput
import MyJQL.BTree.Recycle
import MyJQL.Store.Naming
import MyJQL.Store.Reopen
import MyJQL.Server.Progress
import MyJQL.Shell.Lifetimes
import MyJQL.Server.Vanishing
import MyJQL.Server.Goodbye
import MyJQL.Server.Abandoned
