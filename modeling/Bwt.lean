import Bwt.Basic
import Bwt.Status
import Bwt.BTreeSet
import Bwt.Store.MemoryStore
import Bwt.Store.Steps
import Bwt.Store.Invariants
import Bwt.Store.History
import Bwt.Store.Purge
import Bwt.Store.Spends
import Bwt.Store.Since
import Bwt.Store.Order
import Bwt.AddrMan.Index
import Bwt.AddrMan.Soundness
import Bwt.AddrMan.Sync
import Bwt.AddrMan.Steady
import Bwt.AddrMan.Manager
import Bwt.AddrMan.Mirror
